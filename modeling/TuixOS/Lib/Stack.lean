import TuixOS.Lib.Bytes

/-!
# Words on a stack

`WordsAt m a ws`: the memory `m` has the words `ws` from the address `a` upwards. A stack that grows
down is read this way from its pointer; `push` puts a word in front, `take` and `drop` are pops. `set` and
`set16` write a word in place, and the lower half of one.
Addresses wrap around, so the only bound is the size of the address space.
-/

namespace Lib

def WordsAt (m : BitVec 32 → Byte) : BitVec 32 → List Word → Prop
  | _, [] => True
  | a, w :: ws => load32 m a = w ∧ WordsAt m (a + 4) ws

theorem add_four_ofNat (a : BitVec 32) (k : Nat) :
    a + BitVec.ofNat 32 (4 * (k + 1)) = a + 4 + BitVec.ofNat 32 (4 * k) := by
  rw [Nat.mul_succ, Nat.add_comm, BitVec.ofNat_add, BitVec.add_assoc]
  rfl

namespace WordsAt
variable {m m' : BitVec 32 → Byte} {a : BitVec 32} {v : Word} {ws : List Word}

theorem congr (h : WordsAt m a ws) (hlen : 4 * ws.length ≤ 2 ^ 32)
    (hm : ∀ x, (x - a).toNat < 4 * ws.length → m' x = m x) : WordsAt m' a ws := by
  induction ws generalizing a with
  | nil => trivial
  | cons w ws ih =>
    rw [List.length_cons] at hlen hm
    obtain ⟨hw, hws⟩ := h
    constructor
    · rw [← hw]
      apply load32_congr <;> apply hm <;> bv_omega
    · refine ih hws (by omega) fun x hx => hm x ?_
      have hsub : (x - a).toNat = ((x - (a + 4)).toNat + 4) % 2 ^ 32 := by bv_omega
      omega

theorem push (h : WordsAt m a ws) (hlen : 4 * ws.length + 4 ≤ 2 ^ 32) :
    WordsAt (store32 m (a - 4) v) (a - 4) (v :: ws) := by
  refine ⟨load32_store32 .., ?_⟩
  rw [BitVec.sub_add_cancel]
  refine h.congr (by omega) fun x hx => store32_outside _ _ _ _ ?_
  have hsub : (x - (a - 4)).toNat = ((x - a).toNat + 4) % 2 ^ 32 := by bv_omega
  omega

theorem get (h : WordsAt m a ws) {k : Nat} (hk : ws[k]? = some v) :
    load32 m (a + BitVec.ofNat 32 (4 * k)) = v := by
  induction ws generalizing a k with
  | nil => cases hk
  | cons w ws ih =>
    cases k with
    | zero =>
      cases hk
      simpa using h.1
    | succ k =>
      rw [add_four_ofNat]
      exact ih h.2 hk

theorem get16 (h : WordsAt m a ws) {k : Nat} (hk : ws[k]? = some v) :
    load16 m (a + BitVec.ofNat 32 (4 * k)) = v.setWidth 16 := by
  rw [load16_eq, h.get hk]

theorem drop (h : WordsAt m a ws) (k : Nat) :
    WordsAt m (a + BitVec.ofNat 32 (4 * k)) (ws.drop k) := by
  induction ws generalizing a k with
  | nil => simp [WordsAt]
  | cons w ws ih =>
    cases k with
    | zero => simpa using h
    | succ k =>
      rw [add_four_ofNat]
      exact ih h.2 k

/-- Cleared memory. -/
theorem replicate_zero {n : Nat} (hlen : 4 * n ≤ 2 ^ 32) (hm : ∀ x, (x - a).toNat < 4 * n → m x = 0) :
    WordsAt m a (List.replicate n 0) := by
  have hzero : WordsAt (fun _ => 0) a (List.replicate n 0) := by
    induction n generalizing a with
    | zero => trivial
    | succ n ih =>
      refine ⟨word32_zero, ih (by omega) fun x hx => ?_⟩
      refine hm x ?_
      have hsub : (x - a).toNat = ((x - (a + 4)).toNat + 4) % 2 ^ 32 := by bv_omega
      omega
  refine hzero.congr (by rwa [List.length_replicate]) fun x hx => hm x ?_
  rwa [List.length_replicate] at hx

/-- A store to one word leaves the others, whatever it does to the bytes of that one. -/
theorem set_of_outside (h : WordsAt m a ws) (hlen : 4 * ws.length ≤ 2 ^ 32) {k : Nat} (hk : k < ws.length)
    (hout : ∀ x, 4 ≤ (x - (a + BitVec.ofNat 32 (4 * k))).toNat → m' x = m x)
    (hload : load32 m' (a + BitVec.ofNat 32 (4 * k)) = v) : WordsAt m' a (ws.set k v) := by
  induction ws generalizing a k with
  | nil => cases hk
  | cons w ws ih =>
    rw [List.length_cons] at hlen hk
    obtain ⟨hw, hws⟩ := h
    cases k with
    | zero =>
      rw [Nat.mul_zero, show a + BitVec.ofNat 32 0 = a from BitVec.add_zero a] at hout hload
      refine ⟨hload, hws.congr (by omega) fun x hx => hout x ?_⟩
      have hsub : (x - a).toNat = ((x - (a + 4)).toNat + 4) % 2 ^ 32 := by bv_omega
      omega
    | succ k =>
      rw [add_four_ofNat] at hout hload
      refine ⟨?_, ih hws (by omega) (Nat.lt_of_succ_lt_succ hk) hout hload⟩
      -- the bytes of the first word, seen from the one written
      have hfar : ∀ j : BitVec 32, j.toNat < 4 →
          4 ≤ (a + j - (a + 4 + BitVec.ofNat 32 (4 * k))).toNat := by
        intro j hj
        have hsub : (a + j - (a + 4 + BitVec.ofNat 32 (4 * k))).toNat =
            (2 ^ 32 + j.toNat - 4 - 4 * k) % 2 ^ 32 := by bv_omega
        omega
      have hfirst := hfar 0 (by decide)
      rw [show a + 0 = a from BitVec.add_zero a] at hfirst
      rw [← hw]
      exact load32_congr (hout a hfirst) (hout _ (hfar 1 (by decide))) (hout _ (hfar 2 (by decide)))
        (hout _ (hfar 3 (by decide)))

theorem set (h : WordsAt m a ws) (hlen : 4 * ws.length ≤ 2 ^ 32) {k : Nat} (hk : k < ws.length)
    (v : Word) : WordsAt (store32 m (a + BitVec.ofNat 32 (4 * k)) v) a (ws.set k v) :=
  h.set_of_outside hlen hk (fun _ hx => store32_outside _ _ _ _ hx) (load32_store32 ..)

theorem set16 (h : WordsAt m a ws) (hlen : 4 * ws.length ≤ 2 ^ 32) {k : Nat} {w : Word}
    (hk : ws[k]? = some w) (v : Half) :
    WordsAt (store16 m (a + BitVec.ofNat 32 (4 * k)) v) a (ws.set k (w.extractLsb' 16 16 ++ v)) := by
  obtain ⟨hlt, -⟩ := List.getElem?_eq_some_iff.mp hk
  refine h.set_of_outside hlen hlt (fun x hx => store16_outside _ _ _ _ (by omega)) ?_
  rw [load32_store16, h.get hk]

/-- One lower half is copied to another. -/
theorem copy16 (h : WordsAt m a ws) (hlen : 4 * ws.length ≤ 2 ^ 32) {j k : Nat} {u w : Word}
    (hj : ws[j]? = some u) (hk : ws[k]? = some w) :
    WordsAt (store16 m (a + BitVec.ofNat 32 (4 * k)) (load16 m (a + BitVec.ofNat 32 (4 * j)))) a
      (ws.set k (w.extractLsb' 16 16 ++ u.setWidth 16)) := by
  rw [h.get16 hj]
  exact h.set16 hlen hk _

end WordsAt

end Lib
