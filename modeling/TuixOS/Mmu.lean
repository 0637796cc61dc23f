import TuixOS.Lib.Bytes
import Mathlib.Tactic.Ring

/-!
# Addresses, pages and the macros of `mmu.h`

Kernel memory is a byte store over 32-bit addresses, seen through the kernel's linear mapping:
the physical page `pa` is the page at `p2v pa`. The second half gives the page arithmetic as
`Nat` arithmetic, which is all the later proofs use.
-/

namespace TuixOS

open Lib

abbrev Addr := BitVec 32
abbrev Mem := Addr → Byte

def freeStr : Word := 0xdeadbeef
def pgSize : Word := 4096

def pteP : Word := 0x001
def pteW : Word := 0x002
def pteU : Word := 0x004

def pgRoundUp (sz : Word) : Word := (sz + pgSize - 1) &&& ~~~(pgSize - 1)
def pgRoundDown (a : Word) : Word := a &&& ~~~(pgSize - 1)
def pdx (va : Addr) : Word := (va >>> 22) &&& 0x3FF#32
def ptx (va : Addr) : Word := (va >>> 12) &&& 0x3FF#32
def pteAddr (pte : Word) : Word := pte &&& ~~~0xFFF#32

def kernBase : Word := 0x80000000
def extMem : Word := 0x100000
def kernLink : Word := kernBase + extMem
def devSpace : Word := 0xFE000000
def physTop : Word := 0xE000000

def v2p (a : Addr) : Addr := a - kernBase
def p2v (a : Addr) : Addr := a + kernBase

/-! ## As `Nat` arithmetic -/

theorem and_page_mask (a : Word) : (a &&& 0xFFFFF000#32).toNat = a.toNat / 4096 * 4096 := by
  have h : a &&& 0xFFFFF000#32 = (a >>> 12) <<< 12 := by
    ext i hi
    interval_cases i <;> simp
  have := a.isLt
  rw [h]
  simp only [BitVec.toNat_shiftLeft, BitVec.toNat_ushiftRight, Nat.shiftRight_eq_div_pow,
    Nat.shiftLeft_eq, Nat.reducePow]
  omega

@[simp] theorem pgSize_toNat : pgSize.toNat = 4096 := rfl
@[simp] theorem kernBase_toNat : kernBase.toNat = 2147483648 := rfl

theorem pgRoundDown_toNat (a : Word) : (pgRoundDown a).toNat = a.toNat / 4096 * 4096 :=
  and_page_mask a

theorem pteAddr_toNat (a : Word) : (pteAddr a).toNat = a.toNat / 4096 * 4096 :=
  and_page_mask a

theorem pgRoundUp_toNat (a : Word) :
    (pgRoundUp a).toNat = (a.toNat + 4095) % 2 ^ 32 / 4096 * 4096 := by
  have h : (a + pgSize - 1).toNat = (a.toNat + 4095) % 2 ^ 32 := by
    unfold pgSize
    bv_omega
  rw [← h]
  exact and_page_mask _

theorem and_index_mask (a : Word) : (a &&& 0x3FF#32).toNat = a.toNat % 1024 := by
  rw [BitVec.toNat_and]
  exact Nat.and_two_pow_sub_one_eq_mod a.toNat 10

theorem and_offset_mask (a : Word) : (a &&& 0xFFF#32).toNat = a.toNat % 4096 := by
  rw [BitVec.toNat_and]
  exact Nat.and_two_pow_sub_one_eq_mod a.toNat 12

theorem pdx_toNat (va : Addr) : (pdx va).toNat = va.toNat / 2 ^ 22 := by
  have := va.isLt
  unfold pdx
  rw [and_index_mask, BitVec.toNat_ushiftRight, Nat.shiftRight_eq_div_pow]
  omega

theorem ptx_toNat (va : Addr) : (ptx va).toNat = va.toNat / 4096 % 1024 := by
  unfold ptx
  rw [and_index_mask, BitVec.toNat_ushiftRight, Nat.shiftRight_eq_div_pow]

@[simp] theorem p2v_v2p (a : Addr) : p2v (v2p a) = a := by
  simp [p2v, v2p]

@[simp] theorem v2p_p2v (a : Addr) : v2p (p2v a) = a := by
  simp [p2v, v2p]

/-! ## Pages -/

def PageAligned (a : Addr) : Prop := a.toNat % 4096 = 0

instance (a : Addr) : Decidable (PageAligned a) := inferInstanceAs (Decidable (_ = _))

theorem pageAligned_pgRoundDown (a : Addr) : PageAligned (pgRoundDown a) := by
  rw [PageAligned, pgRoundDown_toNat]
  omega

theorem pageAligned_pgRoundUp (a : Addr) : PageAligned (pgRoundUp a) := by
  rw [PageAligned, pgRoundUp_toNat]
  omega

theorem PageAligned.add_pgSize {p : Addr} (h : PageAligned p) : PageAligned (p + pgSize) := by
  unfold PageAligned at h ⊢
  rw [BitVec.toNat_add, pgSize_toNat]
  omega

theorem PageAligned.v2p {p : Addr} (h : PageAligned p) : PageAligned (v2p p) := by
  unfold PageAligned TuixOS.v2p at *
  rw [BitVec.toNat_sub, kernBase_toNat]
  omega

theorem PageAligned.p2v {p : Addr} (h : PageAligned p) : PageAligned (p2v p) := by
  unfold PageAligned TuixOS.p2v at *
  rw [BitVec.toNat_add, kernBase_toNat]
  omega

theorem PageAligned.pgRoundDown_eq {p : Addr} (h : PageAligned p) : pgRoundDown p = p := by
  apply BitVec.eq_of_toNat_eq
  rw [pgRoundDown_toNat]
  unfold PageAligned at h
  omega

/-- The bytes of the page `p` are those at offsets below 4096 from it. -/
theorem pgRoundDown_eq_iff {p x : Addr} (hp : PageAligned p) :
    pgRoundDown x = p ↔ (x - p).toNat < 4096 := by
  unfold PageAligned at hp
  have := p.isLt
  have := x.isLt
  rw [BitVec.toNat_sub]
  constructor
  · intro h
    have := congrArg BitVec.toNat h
    rw [pgRoundDown_toNat] at this
    omega
  · intro h
    apply BitVec.eq_of_toNat_eq
    rw [pgRoundDown_toNat]
    omega

/-- An aligned word depends on its page only. -/
theorem load32_page {m m' : Mem} {a : Addr} (ha : a.toNat % 4 = 0)
    (h : ∀ x, pgRoundDown x = pgRoundDown a → m' x = m x) : load32 m' a = load32 m a := by
  have hpage : ∀ k : Addr, k.toNat < 4 → pgRoundDown (a + k) = pgRoundDown a := by
    intro k hk
    apply BitVec.eq_of_toNat_eq
    have := a.isLt
    rw [pgRoundDown_toNat, pgRoundDown_toNat, BitVec.toNat_add]
    omega
  apply load32_congr
  · exact h a rfl
  all_goals exact h _ (hpage _ (by decide))

/-- Two memories that differ at most inside the page `p`. -/
def SameOutside (p : Addr) (m m' : Mem) : Prop := ∀ x, pgRoundDown x ≠ p → m' x = m x

namespace SameOutside
variable {p q : Addr} {m m' m'' : Mem}

theorem refl (p : Addr) (m : Mem) : SameOutside p m m := fun _ _ => rfl

theorem trans (h : SameOutside p m m') (h' : SameOutside p m' m'') : SameOutside p m m'' :=
  fun x hx => (h' x hx).trans (h x hx)

/-- A word of another page is the same. -/
theorem load32 (h : SameOutside p m m') {a : Addr} (ha : a.toNat % 4 = 0)
    (hne : pgRoundDown a ≠ p) : load32 m' a = load32 m a :=
  load32_page ha fun x hx => h x (hx ▸ hne)

end SameOutside

theorem sameOutside_store32 {p a : Addr} (m : Mem) (v : Word) (ha : a.toNat % 4 = 0)
    (hp : pgRoundDown a = p) : SameOutside p m (store32 m a v) := by
  intro x hx
  apply store32_outside
  rw [← hp] at hx
  by_contra hlt
  apply hx
  apply BitVec.eq_of_toNat_eq
  have := a.isLt
  have := x.isLt
  rw [BitVec.toNat_sub] at hlt
  rw [pgRoundDown_toNat, pgRoundDown_toNat]
  omega

theorem sameOutside_store8 {p a : Addr} (m : Mem) (b : Byte) (hp : pgRoundDown a = p) :
    SameOutside p m (store8 m a b) := by
  intro x hx
  apply store8_ne
  rintro rfl
  exact hx hp

end TuixOS
