import TuixOS.Mmu
import TuixOS.Stop
import TuixOS.Lib.CStr

/-!
# What code may touch of memory

A `View` is memory with the addresses a piece of code may touch; an access anywhere else is a fault. Code
that returns in every view of some bytes touches no others. `Wrote` says what a view has become.
-/

namespace TuixOS

open Lib

structure View where
  mem : Mem
  inside : Addr → Bool

namespace View

def read (v : View) (a : Addr) : Res Byte :=
  if v.inside a then .ok (v.mem a) else .error .fault

def write (v : View) (a : Addr) (b : Byte) : Res View :=
  if v.inside a then .ok { v with mem := store8 v.mem a b } else .error .fault

/-- The `n` bytes from `a` on are in view. -/
def Holds (v : View) (a : Addr) (n : Nat) : Prop := ∀ i < n, v.inside (a + BitVec.ofNat 32 i) = true

instance decidableHolds (v : View) (a : Addr) (n : Nat) : Decidable (v.Holds a n) :=
  inferInstanceAs (Decidable (∀ i < n, v.inside (a + BitVec.ofNat 32 i) = true))

/-- A string in view, with its NUL. -/
structure Str (v : View) (a : Addr) (s : List Byte) : Prop where
  str : StrAt v.mem a s
  holds : v.Holds a (s.length + 1)

variable {v : View} {a : Addr} {n k : Nat} {c : Byte} {s : List Byte}

theorem Holds.mono (h : v.Holds a n) (hk : k ≤ n) : v.Holds a k :=
  fun i hi => h i (Nat.lt_of_lt_of_le hi hk)

theorem Holds.first (h : v.Holds a (n + 1)) : v.inside a = true := by
  have hfirst := h 0 (Nat.zero_lt_succ n)
  rwa [add_ofNat_zero] at hfirst

theorem Holds.tail (h : v.Holds a (n + 1)) : v.Holds (a + 1) n := by
  intro i hi
  rw [succ_add_ofNat]
  exact h (i + 1) (Nat.succ_lt_succ hi)

theorem read_of_inside (h : v.inside a = true) : v.read a = .ok (v.mem a) := if_pos h

theorem Str.read_nil (h : v.Str a []) : v.read a = .ok 0 := by
  have hnul : v.mem a = 0 := h.str
  rw [read_of_inside h.holds.first, hnul]

theorem Str.read_cons (h : v.Str a (c :: s)) : v.read a = .ok c := by
  rw [read_of_inside h.holds.first, h.str.2.1]

theorem Str.ne_zero (h : v.Str a (c :: s)) : c ≠ 0 := h.str.1

theorem Str.tail (h : v.Str a (c :: s)) : v.Str (a + 1) s := ⟨h.str.2.2, h.holds.tail⟩

/-! ## Writing -/

/-- `v'` is `v` with the bytes `xs` at `a`. -/
structure Wrote (v v' : View) (a : Addr) (xs : List Byte) : Prop where
  inside : v'.inside = v.inside
  bytes : bytesAt v'.mem a xs.length = xs
  frame : ∀ x, xs.length ≤ (x - a).toNat → v'.mem x = v.mem x

section Wrote
variable {v' v'' : View} {xs ys : List Byte}

theorem write_wrote (h : v.inside a = true) : ∃ v', v.write a c = .ok v' ∧ Wrote v v' a [c] := by
  refine ⟨_, if_pos h, rfl, ?_, fun x hx => store8_ne _ _ _ _ ?_⟩
  · exact congrArg (fun b => [b]) (store8_same v.mem a c)
  · rintro rfl
    simp at hx

theorem Wrote.refl (v : View) (a : Addr) : Wrote v v a [] := ⟨rfl, rfl, fun _ _ => rfl⟩

theorem Wrote.holds (h : Wrote v v' a xs) {b : Addr} : v'.Holds b n ↔ v.Holds b n := by
  unfold Holds
  rw [h.inside]

/-- What is written behind other bytes leaves these as they are. -/
theorem Wrote.append (h : Wrote v v' a xs)
    (h' : Wrote v' v'' (a + BitVec.ofNat 32 xs.length) ys) (hfit : xs.length + ys.length ≤ 2 ^ 32) :
    Wrote v v'' a (xs ++ ys) where
  inside := h'.inside.trans h.inside
  bytes := by
    have hkept : bytesAt v''.mem a xs.length = bytesAt v'.mem a xs.length := by
      refine bytesAt_congr fun i hi => h'.frame _ ?_
      rw [BitVec.toNat_sub, BitVec.toNat_add, BitVec.toNat_add, BitVec.toNat_ofNat,
        BitVec.toNat_ofNat]
      omega
    rw [List.length_append, bytesAt_append, hkept, h.bytes, h'.bytes]
  frame x hx := by
    rw [List.length_append] at hx
    rw [h'.frame x ?_, h.frame x (by omega)]
    rw [BitVec.toNat_sub] at hx ⊢
    rw [BitVec.toNat_add, BitVec.toNat_ofNat]
    omega

/-- One more byte. -/
theorem Wrote.write (h : Wrote v v' a xs) (hin : v.inside (a + BitVec.ofNat 32 xs.length) = true)
    (hfit : xs.length + 1 ≤ 2 ^ 32) (c : Byte) :
    ∃ v'', v'.write (a + BitVec.ofNat 32 xs.length) c = .ok v'' ∧ Wrote v v'' a (xs ++ [c]) := by
  rw [← h.inside] at hin
  obtain ⟨v'', hwrite, hwrote⟩ := write_wrote (c := c) hin
  exact ⟨v'', hwrite, h.append hwrote hfit⟩

/-- The first of the bytes written are written again. -/
theorem Wrote.overwrite {zs : List Byte} (h : Wrote v v' a (xs ++ ys)) (h' : Wrote v' v'' a zs)
    (hlen : zs.length = xs.length) (hfit : xs.length + ys.length ≤ 2 ^ 32) :
    Wrote v v'' a (zs ++ ys) where
  inside := h'.inside.trans h.inside
  bytes := by
    have hkept : bytesAt v''.mem (a + BitVec.ofNat 32 xs.length) ys.length =
        bytesAt v'.mem (a + BitVec.ofNat 32 xs.length) ys.length := by
      refine bytesAt_congr fun i hi => h'.frame _ ?_
      rw [add_ofNat_add, BitVec.add_comm, BitVec.add_sub_cancel, BitVec.toNat_ofNat]
      omega
    have hold := h.bytes
    rw [List.length_append, bytesAt_append] at hold
    have hrest := (List.append_inj hold (length_bytesAt _ _ _)).2
    rw [List.length_append, bytesAt_append, h'.bytes, hlen, hkept, hrest]
  frame x hx := by
    rw [List.length_append, hlen] at hx
    rw [h'.frame x (by omega), h.frame x (by rw [List.length_append]; exact hx)]

/-- A string has been written, with its NUL. -/
theorem Wrote.str {s : List Byte} (h : Wrote v v' a (s ++ [0])) (hs : ∀ c ∈ s, c ≠ 0)
    (hin : v.Holds a (s.length + 1)) : v'.Str a s := by
  have hbytes := h.bytes
  rw [List.length_append] at hbytes
  exact ⟨strAt_of_bytesAt hs hbytes, h.holds.mpr hin⟩

end Wrote

/-- Two strings at 0x1000 and at 0x2000, and nothing else in view. -/
def texts (s t : List Byte) : View where
  mem x := if x.toNat < 0x2000 then s.getD (x.toNat - 0x1000) 0 else t.getD (x.toNat - 0x2000) 0
  inside x :=
    0x1000 ≤ x.toNat ∧ x.toNat ≤ 0x1000 + s.length ∨ 0x2000 ≤ x.toNat ∧ x.toNat ≤ 0x2000 + t.length

end View

end TuixOS
