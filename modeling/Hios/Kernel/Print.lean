import Mathlib.Data.List.GetD
import Hios.ChrDrv.Tty
import Hios.Lib.Numeral

/-! The two printers of the kernel: `vsprintf` writes to memory, `s_printk` down the serial
line. Each has its own copy of the loop over the format and of the one over the digits. -/
namespace Hios.Print
open Hios.ChrDrv Hios.Numeral

def minus : Ch := 45
def percent : Ch := 37
def zero : Ch := 48

def digits : List Ch := [48, 49, 50, 51, 52, 53, 54, 55, 56, 57, 65, 66, 67, 68, 69, 70]

def digitAt (stack : Int → Ch) (i : Int) : Ch :=
  if 0 ≤ i ∧ i < 16 then digits.getD i.toNat 0 else stack i

/-- The body of `_sprintnum` and `s_printnum` up to where a character goes. The second
component are the indices into `digits`. -/
def printNum {σ : Type} (put : σ → Ch → σ) (stack : Int → Ch) (num : BitVec 32) (base : Nat)
    (sign : Bool) (s : σ) :
    Option (σ × List Int) :=
  let neg := sign && num.slt 0
  let s := if neg then put s minus else s
  let num := if neg then -num else num
  if num = 0 then some (put s zero, [])
  else (remainders base 32 num.toInt).map fun l => ((l.map (digitAt stack)).reverse.foldl put s, l)

structure Dest where
  mem : Nat → Ch
  dest : Nat
  len : Nat

def Dest.put (d : Dest) (ch : Ch) : Dest := ⟨Function.update d.mem d.dest ch, d.dest + 1, d.len + 1⟩

def sprintnum (stack : Int → Ch) (mem : Nat → Ch) (dest : Nat) (num : BitVec 32) (base : Nat)
    (sign : Bool) :
    Option (Dest × List Int) := printNum Dest.put stack num base sign ⟨mem, dest, 0⟩

def sPutchar (line : List Ch) (ch : Ch) : List Ch := line ++ [ch]

def sPrintnum (stack : Int → Ch) (num : BitVec 32) (base : Nat) (sign : Bool) (line : List Ch) :
    Option (List Ch × List Int) := printNum sPutchar stack num base sign line

structure Printer (σ : Type) where
  put : σ → Ch → σ
  num : BitVec 32 → Nat → Bool → σ → Option (σ × List Int)
  /-- The `sign` that comes with `%x`. -/
  hexSign : Bool

def nextArg (ap : Nat → BitVec 32) : Nat → BitVec 32 := fun i => ap (i + 1)

/-- The `switch` on the character behind a `%`. `str` are the bytes up to the NUL at an address. -/
def convert {σ : Type} (P : Printer σ) (str : BitVec 32 → List Ch) (k : Ch) (ap : Nat → BitVec 32)
    (s : σ) :
    Option ((σ × List Int) × (Nat → BitVec 32)) :=
  if k = 100 then (P.num (ap 0) 10 true s).map fun r => (r, nextArg ap)
  else if k = 117 then (P.num (ap 0) 10 false s).map fun r => (r, nextArg ap)
  else if k = 120 then (P.num (ap 0) 16 P.hexSign s).map fun r => (r, nextArg ap)
  else if k = 115 then some (((str (ap 0)).foldl P.put s, []), nextArg ap)
  else if k = 99 then some ((P.put s ((ap 0).setWidth 8), []), nextArg ap)
  else if k = percent then some ((P.put s percent, []), ap)
  else some ((s, []), ap)

def formatLoop {σ : Type} (P : Printer σ) (str : BitVec 32 → List Ch) :
    List Ch → (Nat → BitVec 32) → σ → Option (σ × List Int)
  | [], _, s => some (s, [])
  | [c], _, s => some (if c = percent then s else P.put s c, [])
  | c :: k :: fmt, ap, s =>
    if c ≠ percent then formatLoop P str (k :: fmt) ap (P.put s c)
    else do
      let ((s, l), ap) ← convert P str k ap s
      let (s, l') ← formatLoop P str fmt ap s
      return (s, l ++ l')

structure Buffer where
  mem : Nat → Ch
  ptr : Nat

def Buffer.put (s : Buffer) (c : Ch) : Buffer := ⟨Function.update s.mem s.ptr c, s.ptr + 1⟩

def vsprintfPrinter (stack : Int → Ch) : Printer Buffer where
  put := Buffer.put
  num num base sign s := (sprintnum stack s.mem s.ptr num base sign).map fun r =>
    (⟨r.1.mem, s.ptr + r.1.len⟩, r.2)
  hexSign := true

def sPrintkPrinter (stack : Int → Ch) : Printer (List Ch) where
  put := sPutchar
  num := sPrintnum stack
  hexSign := false

def vsprintf (stack : Int → Ch) (str : BitVec 32 → List Ch) (mem : Nat → Ch) (dest : Nat)
    (fmt : List Ch) (ap : Nat → BitVec 32) : Option (Buffer × List Int) :=
  formatLoop (vsprintfPrinter stack) str fmt ap ⟨mem, dest⟩

def sPrintk (stack : Int → Ch) (str : BitVec 32 → List Ch) (fmt : List Ch) (ap : Nat → BitVec 32) :
    Option (List Ch × List Int) := formatLoop (sPrintkPrinter stack) str fmt ap []

def Buffer.text (dest : Nat) (s : Buffer) : List Ch :=
  (List.range (s.ptr - dest)).map fun i => s.mem (dest + i)

inductive Conv where
  | d
  | u
  | x
  deriving DecidableEq

def Conv.letter : Conv → Ch
  | .d => 100
  | .u => 117
  | .x => 120

def Conv.base : Conv → Nat
  | .x => 16
  | _ => 10

def Conv.sign (hexSign : Bool) : Conv → Bool
  | .d => true
  | .u => false
  | .x => hexSign

def Conv.value (v : BitVec 32) : Conv → Int
  | .d => v.toInt
  | _ => v.toNat

def numeralText (base n : Nat) : List Ch := (numeral base n).map fun d => digits.getD d 0

def signedText (base : Nat) (n : Int) : List Ch :=
  if n < 0 then minus :: numeralText base n.natAbs else numeralText base n.natAbs

def Conv.text (k : Conv) (v : BitVec 32) : List Ch := signedText k.base (k.value v)

inductive Piece where
  | plain (text : List Ch)
  | number (k : Conv) (v : BitVec 32)

def Piece.text : Piece → List Ch
  | plain text => text
  | number k v => k.text v

def piece (str : BitVec 32 → List Ch) (ch : Ch) (ap : Nat → BitVec 32) :
    Piece × (Nat → BitVec 32) :=
  match [Conv.d, .u, .x].find? fun k => k.letter = ch with
  | some k => (.number k (ap 0), nextArg ap)
  | none =>
    if ch = 115 then (.plain (str (ap 0)), nextArg ap)
    else if ch = 99 then (.plain [(ap 0).setWidth 8], nextArg ap)
    else if ch = percent then (.plain [percent], ap)
    else (.plain [], ap)

def pieces (str : BitVec 32 → List Ch) : List Ch → (Nat → BitVec 32) → List Piece
  | [], _ => []
  | [c], _ => if c = percent then [] else [.plain [c]]
  | c :: k :: fmt, ap =>
    if c ≠ percent then .plain [c] :: pieces str (k :: fmt) ap
    else (piece str k ap).1 :: pieces str fmt (piece str k ap).2

def textOf (ps : List Piece) : List Ch := ps.flatMap Piece.text

def digitOf (base : Nat) (ch : Ch) : Option Nat := (digits.take base).idxOf? ch

def readDigits (base : Nat) (text : List Ch) : Option Nat :=
  if text = [] then none else (text.mapM (digitOf base)).map (value base)

def parse (base : Nat) : List Ch → Option Int
  | [] => none
  | ch :: text =>
    if ch = minus then (readDigits base text).map fun n : Nat => -(n : Int)
    else (readDigits base (ch :: text)).map fun n : Nat => (n : Int)

/-- No 0 but that of the number 0 comes first, also behind a sign. -/
def NoLeadingZero (text : List Ch) : Prop :=
  ∀ rest, text = zero :: rest ∨ text = minus :: zero :: rest → text = [zero]

def InTable (indices : List Int) : Prop := ∀ i ∈ indices, 0 ≤ i ∧ i ≤ 15

def Conv.InRange (v : BitVec 32) : Conv → Prop
  | .d => v ≠ 0x80000000
  | _ => v.toNat < 2 ^ 31

def magnitude (stack : Int → Ch) (base : Nat) (num : BitVec 32) : Option (List Ch × List Int) :=
  if num = 0 then some ([zero], [])
  else (remainders base 32 num.toInt).map fun l => ((l.map (digitAt stack)).reverse, l)

def numText (stack : Int → Ch) (num : BitVec 32) (base : Nat) (sign : Bool) :
    Option (List Ch × List Int) :=
  if sign && num.slt 0 then (magnitude stack base (-num)).map fun r => (minus :: r.1, r.2)
  else magnitude stack base num

def Piece.print (stack : Int → Ch) (hexSign : Bool) : Piece → Option (List Ch × List Int)
  | plain text => some (text, [])
  | number k v => numText stack v k.base (k.sign hexSign)

def printAll (stack : Int → Ch) (hexSign : Bool) : List Piece → Option (List Ch × List Int)
  | [] => some ([], [])
  | p :: ps => do
    let (text, l) ← p.print stack hexSign
    let (text', l') ← printAll stack hexSign ps
    return (text ++ text', l ++ l')

section
variable {σ : Type} {stack : Int → Ch} {num v : BitVec 32} {base n : Nat} {l : List Int}
  {text : List Ch}

theorem printNum_eq (put : σ → Ch → σ) (stack : Int → Ch) (num : BitVec 32) (base : Nat)
    (sign : Bool) (s : σ) :
    printNum put stack num base sign s = (numText stack num base sign).map fun r =>
      (r.1.foldl put s, r.2) := by
  simp only [printNum, numText, magnitude]
  cases sign && num.slt 0 with
  | false =>
    by_cases hzero : num = 0
    · simp [hzero]
    · simp only [Bool.false_eq_true, if_false, if_neg hzero, Option.map_map]
      rfl
  | true =>
    by_cases hzero : -num = 0
    · simp only [if_true, if_pos hzero]
      rfl
    · simp only [if_true, if_neg hzero, Option.map_map]
      rfl

theorem foldl_sPutchar (line text : List Ch) : text.foldl sPutchar line = line ++ text := by
  induction text generalizing line with
  | nil => simp
  | cons ch text ih => simp [sPutchar, ih]

def storeText (mem : Nat → Ch) (dest : Nat) (text : List Ch) : Nat → Ch :=
  fun a => if dest ≤ a ∧ a < dest + text.length then text.getD (a - dest) 0 else mem a

theorem storeText_nil (mem : Nat → Ch) (dest : Nat) : storeText mem dest [] = mem := by
  funext a
  exact if_neg (by simp)

theorem storeText_cons (mem : Nat → Ch) (dest : Nat) (ch : Ch) (text : List Ch) :
    storeText (Function.update mem dest ch) (dest + 1) text = storeText mem dest (ch :: text) := by
  funext a
  simp only [storeText, List.length_cons]
  by_cases hat : a = dest
  · simp [hat]
  · by_cases hin : dest + 1 ≤ a ∧ a < dest + 1 + text.length
    · have hsub : a - dest = (a - (dest + 1)) + 1 := by omega
      rw [if_pos hin, if_pos (by omega), hsub, List.getD_cons_succ]
    · rw [if_neg hin, if_neg (by omega), Function.update_of_ne hat]

theorem foldl_bufferPut (b : Buffer) (text : List Ch) :
    text.foldl Buffer.put b = ⟨storeText b.mem b.ptr text, b.ptr + text.length⟩ := by
  induction text generalizing b with
  | nil =>
    rw [storeText_nil]
    rfl
  | cons ch text ih =>
    rw [List.foldl_cons, ih, Buffer.put, storeText_cons, List.length_cons, Nat.add_assoc,
      Nat.add_comm 1]

theorem foldl_destPut (d : Dest) (text : List Ch) :
    text.foldl Dest.put d = ⟨storeText d.mem d.dest text, d.dest + text.length,
      d.len + text.length⟩ := by
  induction text generalizing d with
  | nil =>
    rw [storeText_nil]
    rfl
  | cons ch text ih =>
    rw [List.foldl_cons, ih, Dest.put, storeText_cons, List.length_cons, Nat.add_assoc,
      Nat.add_assoc,
      Nat.add_comm 1 text.length]

theorem text_storeText (mem : Nat → Ch) (dest : Nat) (text : List Ch) :
    Buffer.text dest ⟨storeText mem dest text, dest + text.length⟩ = text := by
  have hlen : dest + text.length - dest = text.length := Nat.add_sub_cancel_left dest text.length
  refine List.ext_getElem (by simp [Buffer.text]) fun i h₁ h₂ => ?_
  simp [Buffer.text, storeText, h₂]

def Printer.Uniform (P : Printer σ) (stack : Int → Ch) : Prop :=
  ∀ num base sign s, P.num num base sign s = (numText stack num base sign).map fun r =>
    (r.1.foldl P.put s, r.2)

theorem uniform_vsprintf (stack : Int → Ch) : (vsprintfPrinter stack).Uniform stack := by
  intro num base sign s
  simp [vsprintfPrinter, sprintnum, printNum_eq, foldl_destPut, foldl_bufferPut, Function.comp_def]

theorem uniform_sPrintk (stack : Int → Ch) : (sPrintkPrinter stack).Uniform stack :=
  fun num base sign s => printNum_eq sPutchar stack num base sign s

theorem piece_letter (str : BitVec 32 → List Ch) (k : Conv) (ap : Nat → BitVec 32) :
    piece str k.letter ap = (.number k (ap 0), nextArg ap) := by
  cases k <;> rfl

theorem convert_eq {P : Printer σ} (hP : P.Uniform stack) (str : BitVec 32 → List Ch) (ch : Ch)
    (ap : Nat → BitVec 32) (s : σ) : convert P str ch ap s =
      ((piece str ch ap).1.print stack P.hexSign).map fun r =>
        ((r.1.foldl P.put s, r.2), (piece str ch ap).2) := by
  by_cases hletter : ∃ k : Conv, k.letter = ch
  · obtain ⟨k, rfl⟩ := hletter
    rw [piece_letter, convert, Piece.print]
    cases k with
    | d => simp [Conv.letter, Conv.base, Conv.sign, hP (ap 0), Function.comp_def]
    | u => simp [Conv.letter, Conv.base, Conv.sign, hP (ap 0), Function.comp_def]
    | x => simp [Conv.letter, Conv.base, Conv.sign, hP (ap 0), Function.comp_def]
  · have hd : ch ≠ 100 := fun h => hletter ⟨.d, h.symm⟩
    have hu : ch ≠ 117 := fun h => hletter ⟨.u, h.symm⟩
    have hx : ch ≠ 120 := fun h => hletter ⟨.x, h.symm⟩
    have hfind : ([Conv.d, .u, .x].find? fun k => k.letter = ch) = none :=
      List.find?_eq_none.mpr fun k _ hk => hletter ⟨k, of_decide_eq_true hk⟩
    rw [convert, if_neg hd, if_neg hu, if_neg hx, piece, hfind]
    split_ifs <;> rfl

theorem formatLoop_eq {P : Printer σ} (hP : P.Uniform stack) (str : BitVec 32 → List Ch)
    (fmt : List Ch) (ap : Nat → BitVec 32) (s : σ) : formatLoop P str fmt ap s =
      (printAll stack P.hexSign (pieces str fmt ap)).map fun r => (r.1.foldl P.put s, r.2) := by
  induction fmt, ap using pieces.induct str generalizing s with
  | case1 ap => rfl
  | case2 ap => simp [formatLoop, pieces, printAll]
  | case3 c ap hc => simp [formatLoop, pieces, printAll, Piece.print, hc]
  | case4 c k fmt ap hc ih =>
    rw [formatLoop, if_pos hc, ih, pieces, if_pos hc, printAll]
    cases printAll stack P.hexSign (pieces str (k :: fmt) ap) with
    | none => rfl
    | some r => rfl
  | case5 c k fmt ap hc ih =>
    rw [formatLoop, if_neg hc, convert_eq hP, pieces, if_neg hc, printAll]
    cases (piece str k ap).1.print stack P.hexSign with
    | none => rfl
    | some r =>
      simp only [Option.map_some, Option.bind_eq_bind, Option.bind_some, ih]
      cases printAll stack P.hexSign (pieces str fmt (piece str k ap).2) with
      | none => rfl
      | some r' => simp [List.foldl_append]

theorem vsprintf_eq (stack : Int → Ch) (str : BitVec 32 → List Ch) (mem : Nat → Ch) (dest : Nat)
    (fmt : List Ch) (ap : Nat → BitVec 32) :
    vsprintf stack str mem dest fmt ap = (printAll stack true (pieces str fmt ap)).map
      fun r => (⟨storeText mem dest r.1, dest + r.1.length⟩, r.2) := by
  rw [vsprintf, formatLoop_eq (uniform_vsprintf stack)]
  simp [vsprintfPrinter, foldl_bufferPut]

theorem sPrintk_eq (stack : Int → Ch) (str : BitVec 32 → List Ch) (fmt : List Ch)
    (ap : Nat → BitVec 32) :
    sPrintk stack str fmt ap = printAll stack false (pieces str fmt ap) := by
  rw [sPrintk, formatLoop_eq (uniform_sPrintk stack)]
  simp [sPrintkPrinter, foldl_sPutchar]

theorem digitAt_natCast (stack : Int → Ch) (hn : n < 16) : digitAt stack n = digits.getD n 0 := by
  rw [digitAt, if_pos (by omega)]
  rfl

theorem magnitude_of_nonneg (stack : Int → Ch) (hb : 1 < base) (hbase : base ≤ 16)
    (hnum : num.toInt = n) :
    ∃ l, magnitude stack base num = some (numeralText base n, l) ∧ InTable l := by
  rw [magnitude]
  by_cases hzero : num = 0
  · obtain rfl : n = 0 := by
      have hcast : (0 : BitVec 32).toInt = n := hzero ▸ hnum
      exact Int.natCast_eq_zero.mp hcast.symm
    exact ⟨[], if_pos hzero, List.forall_mem_nil _⟩
  · have hne : n ≠ 0 := by
      rintro rfl
      exact hzero (BitVec.toInt_inj.mp hnum)
    have hfuel : n < 2 ^ 32 := by
      have hlt := num.toInt_lt
      omega
    have hdigits : ∀ d ∈ Nat.digits base n, d < 16 :=
      fun d hd => (Nat.digits_lt_base hb hd).trans_le hbase
    have htext : (((Nat.digits base n).map fun d : ℕ => (d : ℤ)).map (digitAt stack)).reverse =
        numeralText base n := by
      rw [numeralText, numeral, if_neg hne, List.map_reverse, List.map_map]
      exact congrArg List.reverse
        (List.map_congr_left fun d hd => digitAt_natCast stack (hdigits d hd))
    rw [if_neg hzero, hnum, remainders_natCast hb hfuel, Option.map_some, htext]
    refine ⟨_, rfl, fun i hi => ?_⟩
    obtain ⟨d, hd, rfl⟩ := List.mem_map.mp hi
    have hlt := hdigits d hd
    omega

theorem magnitude_of_neg (hneg : num.toInt < 0) (h : magnitude stack base num = some (text, l)) :
    ¬ InTable l := by
  have hne : num ≠ 0 := by
    rintro rfl
    exact absurd hneg (by decide)
  rw [magnitude, if_neg hne] at h
  obtain ⟨ds, hds, heq⟩ := Option.map_eq_some_iff.mp h
  obtain ⟨-, rfl⟩ := Prod.mk.inj heq
  obtain ⟨d, hd, hlt⟩ := exists_neg_remainder (Int.natCast_nonneg base) hds hneg
  exact fun hin => absurd (hin d hd).1 (not_le.mpr hlt)

theorem Conv.one_lt_base (k : Conv) : 1 < k.base := by
  cases k <;> decide

theorem Conv.base_le (k : Conv) : k.base ≤ 16 := by
  cases k <;> decide

theorem slt_zero (v : BitVec 32) : v.slt 0 = decide (v.toInt < 0) := by
  simp [BitVec.slt]

theorem numText_of_nonneg (stack : Int → Ch) (base : Nat) (sign : Bool) (hv : 0 ≤ v.toInt) :
    numText stack v base sign = magnitude stack base v := by
  rw [numText, slt_zero, decide_eq_false (not_lt.mpr hv), Bool.and_false]
  rfl

theorem numText_of_neg (stack : Int → Ch) (base : Nat) (hv : v.toInt < 0) :
    numText stack v base true = (magnitude stack base (-v)).map fun r => (minus :: r.1, r.2) := by
  rw [numText, slt_zero, decide_eq_true hv]
  rfl

theorem value_of_inRange {k : Conv} (hk : k.InRange v) : k.value v = v.toInt := by
  cases k with
  | d => rfl
  | u => exact (BitVec.toInt_eq_toNat_of_lt (by change v.toNat < 2 ^ 31 at hk; omega)).symm
  | x => exact (BitVec.toInt_eq_toNat_of_lt (by change v.toNat < 2 ^ 31 at hk; omega)).symm

theorem sign_of_value_neg {k : Conv} (hneg : k.value v < 0) (hexSign : Bool) :
    k = .d ∧ k.sign hexSign = true := by
  cases k with
  | d => exact ⟨rfl, rfl⟩
  | u => exact absurd hneg (not_lt.mpr (Int.natCast_nonneg _))
  | x => exact absurd hneg (not_lt.mpr (Int.natCast_nonneg _))

theorem numText_of_inRange (stack : Int → Ch) (hexSign : Bool) {k : Conv} (hk : k.InRange v) :
    ∃ l, numText stack v k.base (k.sign hexSign) = some (k.text v, l) ∧ InTable l := by
  have hvalue := value_of_inRange hk
  rw [Conv.text, signedText, hvalue]
  split
  · rename_i hneg
    obtain ⟨rfl, hsign⟩ := sign_of_value_neg (hvalue ▸ hneg) hexSign
    have hopp : (-v).toInt = v.toInt.natAbs := by
      rw [BitVec.toInt_neg_of_ne_intMin hk]
      omega
    obtain ⟨l, hl, hin⟩ := magnitude_of_nonneg stack (Conv.one_lt_base .d) (Conv.base_le .d) hopp
    rw [hsign, numText_of_neg stack _ hneg, hl]
    exact ⟨l, rfl, hin⟩
  · rename_i hpos
    rw [numText_of_nonneg stack _ _ (not_lt.mp hpos)]
    exact magnitude_of_nonneg stack k.one_lt_base k.base_le
      (Int.natAbs_of_nonneg (not_lt.mp hpos)).symm

/-- Down the serial line any other value takes a digit from outside the table. -/
theorem not_inTable_of_not_inRange {k : Conv} (hk : ¬ k.InRange v)
    (h : numText stack v k.base (k.sign false) = some (text, l)) : ¬ InTable l := by
  have hunsigned : ¬ v.toNat < 2 ^ 31 → v.toInt < 0 := fun hv => BitVec.toInt_neg_iff.mpr (by omega)
  cases k with
  | d =>
    obtain rfl : v = 0x80000000 := of_not_not hk
    rw [Conv.sign, numText_of_neg stack _ (by decide)] at h
    obtain ⟨⟨t, l'⟩, hmag, heq⟩ := Option.map_eq_some_iff.mp h
    obtain ⟨-, rfl⟩ := Prod.mk.inj heq
    exact magnitude_of_neg (by decide) hmag
  | u => exact magnitude_of_neg (hunsigned hk) h
  | x => exact magnitude_of_neg (hunsigned hk) h

theorem digitOf_digits (k : Conv) (hn : n < k.base) :
    digitOf k.base (digits.getD n 0) = some n := by
  have hten : ∀ n < 10, digitOf 10 (digits.getD n 0) = some n := by decide
  have hsixteen : ∀ n < 16, digitOf 16 (digits.getD n 0) = some n := by decide
  cases k with
  | d => exact hten n hn
  | u => exact hten n hn
  | x => exact hsixteen n hn

theorem mapM_digitOf (k : Conv) {ds : List ℕ} (hds : ∀ d ∈ ds, d < k.base) :
    (ds.map fun d => digits.getD d 0).mapM (digitOf k.base) = some ds := by
  induction ds with
  | nil => rfl
  | cons d ds ih =>
    have hd := digitOf_digits k (hds d List.mem_cons_self)
    have hrest := ih fun e he => hds e (List.mem_cons_of_mem d he)
    rw [List.map_cons, List.mapM_cons, hd, hrest]
    rfl

theorem readDigits_numeralText (k : Conv) (n : ℕ) :
    readDigits k.base (numeralText k.base n) = some n := by
  have hne : numeralText k.base n ≠ [] :=
    fun h => numeral_ne_nil k.base n (List.map_eq_nil_iff.mp h)
  rw [readDigits, if_neg hne, numeralText, mapM_digitOf k fun d hd =>
    lt_of_mem_numeral k.one_lt_base hd,
    Option.map_some, value_numeral]

theorem getD_digits (n : ℕ) : digits.getD n 0 ≠ minus ∧ (digits.getD n 0 = zero → n = 0) := by
  by_cases hn : n < 16
  · have hall : ∀ n < 16, digits.getD n 0 ≠ minus ∧ (digits.getD n 0 = zero → n = 0) := by decide
    exact hall n hn
  · rw [List.getD_eq_default _ _ (not_lt.mp hn)]
    exact ⟨by decide, fun h => absurd h (by decide)⟩

theorem exists_numeralText (k : Conv) (n : ℕ) :
    ∃ d ds, numeral k.base n = d :: ds ∧ numeralText k.base n = digits.getD d 0 :: ds.map fun d =>
      digits.getD d 0 := by
  obtain ⟨d, ds, h⟩ := List.exists_cons_of_ne_nil (numeral_ne_nil k.base n)
  exact ⟨d, ds, h, by rw [numeralText, h, List.map_cons]⟩

theorem parse_text (k : Conv) (v : BitVec 32) : parse k.base (k.text v) = some (k.value v) := by
  rw [Conv.text, signedText]
  split
  · rename_i hneg
    rw [parse, if_pos rfl, readDigits_numeralText, Option.map_some,
      Int.ofNat_natAbs_of_nonpos hneg.le, neg_neg]
  · rename_i hpos
    obtain ⟨d, ds, -, htext⟩ := exists_numeralText k (k.value v).natAbs
    have hread := readDigits_numeralText k (k.value v).natAbs
    rw [htext] at hread
    rw [htext, parse, if_neg (getD_digits d).1, hread, Option.map_some,
      Int.natAbs_of_nonneg (not_lt.mp hpos)]

theorem noLeadingZero_text (k : Conv) (v : BitVec 32) : NoLeadingZero (k.text v) := by
  obtain ⟨d, ds, hnum, htext⟩ := exists_numeralText k (k.value v).natAbs
  have hzero : digits.getD d 0 = zero → (k.value v).natAbs = 0 := by
    intro hd
    by_contra hne
    exact head?_numeral hne (by rw [hnum, (getD_digits d).2 hd, List.head?_cons])
  intro rest hrest
  rw [Conv.text, signedText, htext] at hrest ⊢
  split at hrest
  · rename_i hneg
    obtain hhead | hhead := hrest
    · exact absurd (List.cons.inj hhead).1 (by decide)
    · have hd := hzero (List.cons.inj (List.cons.inj hhead).2).1
      omega
  · rename_i hpos
    obtain hhead | hhead := hrest
    · rw [if_neg hpos, ← htext, hzero (List.cons.inj hhead).1]
      rfl
    · exact absurd (List.cons.inj hhead).1 (getD_digits d).1

theorem printAll_of_inRange (stack : Int → Ch) (hexSign : Bool) {ps : List Piece}
    (hps : ∀ k v, Piece.number k v ∈ ps → k.InRange v) :
    ∃ l, printAll stack hexSign ps = some (textOf ps, l) ∧ InTable l := by
  induction ps with
  | nil => exact ⟨[], rfl, List.forall_mem_nil _⟩
  | cons p ps ih =>
    obtain ⟨l', hrest, hin'⟩ := ih fun k v hmem => hps k v (List.mem_cons_of_mem p hmem)
    have hpiece : ∃ l, p.print stack hexSign = some (p.text, l) ∧ InTable l := by
      cases p with
      | plain text => exact ⟨[], rfl, List.forall_mem_nil _⟩
      | number k v => exact numText_of_inRange stack hexSign (hps k v List.mem_cons_self)
    obtain ⟨l, hfirst, hin⟩ := hpiece
    rw [printAll, hfirst, hrest]
    exact ⟨l ++ l', rfl, List.forall_mem_append.mpr ⟨hin, hin'⟩⟩

/-- If all digits of the serial line come from the table, all numbers are in the range. -/
theorem inRange_of_printAll {ps : List Piece} (h : printAll stack false ps = some (text, l))
    (hin : InTable l) {k : Conv} (hmem : Piece.number k v ∈ ps) : k.InRange v := by
  induction ps generalizing text l with
  | nil => cases hmem
  | cons p ps ih =>
    obtain ⟨⟨t, l₁⟩, hfirst, h⟩ := Option.bind_eq_some_iff.mp h
    obtain ⟨⟨t', l₂⟩, hrest, h⟩ := Option.bind_eq_some_iff.mp h
    obtain ⟨-, rfl⟩ := Prod.mk.inj (Option.some.inj h)
    obtain ⟨hin₁, hin₂⟩ := List.forall_mem_append.mp hin
    obtain rfl | hmem := List.mem_cons.mp hmem
    · by_contra hk
      exact not_inTable_of_not_inRange hk hfirst hin₁
    · exact ih hrest hin₂ hmem

theorem sprintnum_len {mem : Nat → Ch} {dest : Nat} {sign : Bool} {d : Dest}
    (h : sprintnum stack mem dest num base sign = some (d, l)) : d.dest = dest + d.len := by
  rw [sprintnum, printNum_eq] at h
  obtain ⟨r, -, heq⟩ := Option.map_eq_some_iff.mp h
  obtain ⟨rfl, -⟩ := Prod.mk.inj heq
  rw [foldl_destPut, Nat.zero_add]

end

/-- Both printers print the numbers of a format, and the texts around them. -/
structure PrintsRight (stack : Int → Ch) (str : BitVec 32 → List Ch) (mem : Nat → Ch) (dest : Nat)
  (fmt : List Ch)
    (ap : Nat → BitVec 32) : Prop where
  console : ∃ b l, vsprintf stack str mem dest fmt ap = some (b, l) ∧
    b.text dest = textOf (pieces str fmt ap) ∧ InTable l
  serial : ∃ l, sPrintk stack str fmt ap = some (textOf (pieces str fmt ap), l) ∧ InTable l
  /-- The texts of the numbers can be read back. -/
  parses : ∀ k v, Piece.number k v ∈ pieces str fmt ap → parse k.base (k.text v) = some (k.value v)
  noLeadingZero : ∀ k v, Piece.number k v ∈ pieces str fmt ap → NoLeadingZero (k.text v)
  /-- `_sprintnum` returns how many characters it wrote. -/
  returned : ∀ k v, Piece.number k v ∈ pieces str fmt ap → ∀ mem dest, ∃ d l,
    sprintnum stack mem dest v k.base (k.sign true) = some (d, l) ∧ d.len = (k.text v).length ∧
      d.dest = dest + d.len

/-- The numbers are printed right exactly if they are in the range of their conversions. -/
theorem prints_right_iff (stack : Int → Ch) (str : BitVec 32 → List Ch) (mem : Nat → Ch)
    (dest : Nat) (fmt : List Ch) (ap : Nat → BitVec 32) :
    PrintsRight stack str mem dest fmt ap ↔ ∀ k v, Piece.number k v ∈ pieces str fmt ap →
    k.InRange v := by
  constructor
  · intro h k v hmem
    obtain ⟨l, hserial, hin⟩ := h.serial
    rw [sPrintk_eq] at hserial
    exact inRange_of_printAll hserial hin hmem
  · intro h
    refine ⟨?console, ?serial, fun k v _ => parse_text k v, fun k v _ => noLeadingZero_text k v,
      ?returned⟩
    case console =>
      obtain ⟨l, hl, hin⟩ := printAll_of_inRange stack true h
      rw [vsprintf_eq, hl]
      exact ⟨_, l, rfl, text_storeText mem dest _, hin⟩
    case serial =>
      rw [sPrintk_eq]
      exact printAll_of_inRange stack false h
    case returned =>
      intro k v hmem mem dest
      obtain ⟨l, hl, -⟩ := numText_of_inRange stack true (h k v hmem)
      have hprint : sprintnum stack mem dest v k.base (k.sign true) =
          some (⟨storeText mem dest (k.text v), dest + (k.text v).length, 0 + (k.text v).length⟩,
            l) := by
        rw [sprintnum, printNum_eq, hl, Option.map_some, foldl_destPut]
      exact ⟨_, l, hprint, Nat.zero_add _, sprintnum_len hprint⟩

theorem vsprintf_hex_minus_one :
    (vsprintf (fun _ => 0) (fun _ => []) (fun _ => 0) 0 [percent, 120] fun _ => 0xFFFFFFFF).map
      (fun r => r.1.text 0) =
        some [minus, 49] ∧
      ¬ PrintsRight (fun _ => 0) (fun _ => []) (fun _ => 0) 0 [percent, 120] fun _ =>
        0xFFFFFFFF := by
  have hone : (vsprintf (fun _ => 0) (fun _ => []) (fun _ => 0) 0 [percent, 120] fun _ =>
    0xFFFFFFFF).map
      (fun r => r.1.text 0) = some [minus, 49] := by decide
  refine ⟨hone, fun h => ?_⟩
  obtain ⟨b, l, hb, htext, -⟩ := h.console
  rw [hb, Option.map_some, htext] at hone
  exact absurd hone (by decide)

end Hios.Print
