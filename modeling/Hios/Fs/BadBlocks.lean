import Hios.Fs.ZoneTree
import Hios.Fs.PathWalk
import Hios.Fs.BlockBounds

/-! Blocks that the driver never reads: `bread` fails on them again and again, and what
reads other blocks does not change that. -/
namespace Hios.Fs
open Hios.Outcome
variable {fs fs' fs'' : FileSystem} {i : InodeIx} {dev block n : Nat}

def Fails (fs : FileSystem) (dev block : Nat) : Prop :=
  cached fs dev block = false ∧ ∀ n, fs.readable n dev block = false

structure Passed (fs fs' : FileSystem) : Prop where
  still : Still fs fs'
  fails : ∀ d b, Fails fs d b → Fails fs' d b

theorem Passed.refl (fs : FileSystem) : Passed fs fs := ⟨.refl fs, fun _ _ => id⟩

theorem Passed.trans (h : Passed fs fs') (h' : Passed fs' fs'') : Passed fs fs'' :=
  ⟨h.still.trans h'.still, fun d b hf => h'.fails d b (h.fails d b hf)⟩

theorem Fails.unavailable (h : Fails fs dev block) : available fs dev 0 block = false :=
  Bool.or_eq_false_iff.mpr ⟨h.1, h.2 _⟩

theorem Fails.not_readable (h : Fails fs dev block) : ¬ Readable fs dev block := fun hr => by
  have hno := h.unavailable
  rw [available_of_readable hr] at hno
  cases hno

theorem OnlyBuffers.fails (h : OnlyBuffers fs fs') {d b : Nat} (hf : Fails fs d b)
    (hc : cached fs' d b = false) :
    Fails fs' d b := by
  refine ⟨hc, fun n => ?_⟩
  rw [h]
  exact hf.2 n

theorem bread_fails (dev block : Nat) (fs : FileSystem) :
    IfReturns (fun r => ∀ d b, Fails fs d b → Fails r.2 d b) (bread dev block fs) := by
  refine ifReturns_iff.mpr fun r hr d b hf =>
    (IfReturns.of_ok (bread_only dev block fs) hr).fails hf ?_
  cases ha : available fs dev 0 block with
  | true =>
    obtain ⟨bh, hbread, -⟩ := bread_available ha
    obtain rfl := Except.ok.inj (hr.symm.trans hbread)
    have hne : ¬ (d = dev ∧ b = block) := fun ⟨hd, hb⟩ => by
      subst hd hb
      rw [hf.unavailable] at ha
      cases ha
    exact (cached_setBuffer _ dev block bh d b).trans (if_neg hne ▸ hf.1)
  | false =>
    have hup := getblk_uptodate fs dev block
    rw [bread_unavailable ha] at hr
    split at hr
    · cases hr
    · obtain rfl := Except.ok.inj hr
      refine (cached_setBuffer _ dev block _ d b).trans ?_
      split
      · exact hup.trans (Bool.or_eq_false_iff.mp ha).1
      · exact hf.1

theorem brelse_fails (dev block : Nat) (fs : FileSystem) :
    IfReturns (fun r => ∀ d b, Fails fs d b → Fails r d b) (brelse dev block fs) := by
  refine ifReturns_iff.mpr fun r hr d b hf => ?_
  obtain ⟨bh, hb, -, rfl⟩ := brelse_eq_ok.mp hr
  refine (onlyBuffers_setBuffer ..).fails hf ((cached_setBuffer ..).trans ?_)
  split
  · rename_i e
    have hc := hf.1
    rw [e.1, e.2] at hc
    simpa [cached, hb] using hc
  · exact hf.1

theorem bread_passed (ha : available fs dev 0 block = true)
    (hcount : bufferCount fs dev block < 255) :
    ∃ fs₁ fs₂, bread dev block fs = .ok (some (content fs dev block), fs₁) ∧
    brelse dev block fs₁ = .ok fs₂ ∧
      Passed fs fs₂ := by
  obtain ⟨fs₁, hbread, htaken⟩ := bread_taken ha
  obtain ⟨fs₂, hrel, hstill⟩ := htaken.brelse hcount
  exact ⟨fs₁, fs₂, hbread, hrel, hstill, fun d b hf =>
    (brelse_fails dev block fs₁).of_ok hrel d b ((bread_fails dev block fs).of_ok hbread d b hf)⟩

theorem bread_lost (ha : available fs dev 0 block = false)
    (hcount : bufferCount fs dev block < 255) :
    ∃ fs₁, bread dev block fs = .ok (none, fs₁) ∧ Passed fs fs₁ := by
  obtain ⟨fs₁, hbread, hstill⟩ := bread_still ha hcount
  exact ⟨fs₁, hbread, hstill, (bread_fails dev block fs).of_ok hbread⟩

theorem zones_passed (hcount : bufferCount fs dev block < 255)
    {f : Block → FileSystem → Except Panic (Nat × FileSystem)}
    (hf : ∀ data fs₁, Passed fs fs₁ → ∃ z fs', f data fs₁ = .ok (z, fs') ∧ Passed fs fs') :
    ∃ z fs', (do
      match ← bread dev block fs with
      | (none, fs) => return (0, fs)
      | (some data, fs) =>
        let fs ← brelse dev block fs
        f data fs) = .ok (z, fs') ∧ Passed fs fs' := by
  cases ha : available fs dev 0 block with
  | true =>
    obtain ⟨fs₁, fs₂, hbread, hrel, hpassed⟩ := bread_passed ha hcount
    obtain ⟨z, fs₃, heq, hpassed'⟩ := hf (content fs dev block) fs₂ hpassed
    refine ⟨z, fs₃, ?_, hpassed'⟩
    rw [hbread]
    change (brelse dev block fs₁ >>= _) = _
    rw [hrel]
    exact heq
  | false =>
    obtain ⟨fs₁, hbread, hpassed⟩ := bread_lost ha hcount
    refine ⟨0, fs₁, ?_, hpassed⟩
    rw [hbread]
    rfl

theorem bmap_passed (hn : n < MAPPABLE) (hcount : ∀ z, bufferCount fs (fs.inode i).iDev z < 255) :
    ∃ z fs', bmap i n fs = .ok (z, fs') ∧ Passed fs fs' := by
  have hin : ¬ 7 + 512 + 512 * 512 ≤ n := Nat.not_le_of_lt hn
  unfold bmap
  simp only [if_neg hin]
  by_cases hdirect : n < 7
  · simp only [dif_pos hdirect]
    exact ⟨_, fs, rfl, .refl fs⟩
  simp only [dif_neg hdirect]
  by_cases hind : n - 7 < 512
  · simp only [if_pos hind]
    by_cases h7 : (fs.inode i).d.iZone 7 = 0
    · exact ⟨0, fs, if_pos h7, .refl fs⟩
    · rw [if_neg h7]
      exact zones_passed (hcount _) fun data fs₁ h₁ => ⟨_, fs₁, rfl, h₁⟩
  · simp only [if_neg hind]
    by_cases h8 : (fs.inode i).d.iZone 8 = 0
    · exact ⟨0, fs, if_pos h8, .refl fs⟩
    rw [if_neg h8]
    refine zones_passed (hcount _) fun data fs₁ h₁ => ?_
    by_cases he : data.short ((n - 7 - 512) / 512) = 0
    · exact ⟨0, fs₁, if_pos he, h₁⟩
    rw [if_neg he]
    have hcount₁ : bufferCount fs₁ (fs.inode i).iDev (data.short ((n - 7 - 512) / 512)) < 255 := by
      rw [h₁.still.counts]
      exact hcount _
    obtain ⟨z, fs₂, heq, h₂⟩ := zones_passed hcount₁
      fun data fs₂ h₂ => ⟨data.short ((n - 7 - 512) % 512), fs₂, rfl, h₂⟩
    exact ⟨z, fs₂, heq, h₁.trans h₂⟩

end Hios.Fs
