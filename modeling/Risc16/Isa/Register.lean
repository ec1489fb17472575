import Risc16.Text.Numeral

/-! # Registers

There are eight general registers, numbered by three bits.  They are written `r0` to `r7`, and
those names, in either case, are reserved.
-/
namespace Risc16

structure Reg where
  bits : BitVec 3
  deriving DecidableEq

namespace Reg

def zero : Reg := ⟨0⟩

def index (r : Reg) : Nat := r.bits.toNat

theorem index_lt (r : Reg) : r.index < 8 := r.bits.isLt

def ofIndex? (n : Nat) : Option Reg := if n < 8 then some ⟨BitVec.ofNat 3 n⟩ else none

def all : List Reg := (List.range 8).map fun n => ⟨BitVec.ofNat 3 n⟩

def text (r : Reg) : String := "r" ++ Text.decimal r.index

/-- The register of exactly this name, in either case. -/
def ofName? (name : String) : Option Reg := all.find? (·.text == name.toLower)

/-- Register names cannot be used for anything else. -/
def isReserved (name : String) : Bool := (ofName? name).isSome

@[simp] theorem ofIndex?_index (r : Reg) : ofIndex? r.index = some r := by
  rw [ofIndex?, if_pos r.index_lt]
  simp [index]

theorem index_of_ofIndex? {n : Nat} {r : Reg} (h : ofIndex? n = some r) : r.index = n := by
  unfold ofIndex? at h
  split at h
  · cases h
    simp only [index, BitVec.toNat_ofNat]
    omega
  · simp at h

theorem ofIndex?_eq_none_iff (n : Nat) : ofIndex? n = none ↔ 8 ≤ n := by
  simp [ofIndex?]

@[ext] theorem ext_index {r s : Reg} (h : r.index = s.index) : r = s := by
  cases r
  cases s
  exact congrArg Reg.mk (BitVec.eq_of_toNat_eq h)

theorem mem_all (r : Reg) : r ∈ all := by
  simp only [all, List.mem_map, List.mem_range]
  exact ⟨r.index, r.index_lt, by simp [index]⟩

end Reg

end Risc16
