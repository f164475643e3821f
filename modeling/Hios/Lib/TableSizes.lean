import Mathlib

/-! The sizes of tables that stand as numerals in types. -/
namespace Hios

instance neZero_eight : NeZero 8 := ⟨by decide⟩
instance neZero_nine : NeZero 9 := ⟨by decide⟩
instance neZero_thirtyOne : NeZero 31 := ⟨by decide⟩
instance neZero_thirtyTwo : NeZero 32 := ⟨by decide⟩
instance neZero_sixtyFour : NeZero 64 := ⟨by decide⟩
instance neZero_kilo : NeZero 1024 := ⟨by decide⟩

end Hios
