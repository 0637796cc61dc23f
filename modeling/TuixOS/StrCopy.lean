import TuixOS.View
import TuixOS.CString
import TuixOS.Lib.Fuel

/-!
# `strcpy`, `strncpy` and `strcat` of `lib/string.c`

The three copy upwards, so a target that overlaps the source from below is as good as one apart from it
(`Upwards`). `strncpy` looks at no more than `n` bytes of its source, which need not end in a NUL (`Cut`), and
writes `n` bytes whatever it has found.
-/

namespace TuixOS

open Lib

/-- `while((*dst++ = *src++) != 0);` -/
def strcpyLoop : Nat → Addr → Addr → View → Res View
  | 0, _, _, _ => .error .diverge
  | fuel + 1, dst, src, v => do
    let c ← v.read src
    let v ← v.write dst c
    if c ≠ 0 then strcpyLoop fuel (dst + 1) (src + 1) v else return v

def strcpy (fuel : Nat) (dst src : Addr) (v : View) : Res (Addr × View) := do
  let os := dst
  let v ← strcpyLoop fuel dst src v
  return (os, v)

/-- `while (n > 0 && *s != '\0')`: `d` and `n` behind it. -/
def strncpyLoop : Nat → Addr → Addr → View → Res (Addr × Nat × View)
  | 0, d, _, v => .ok (d, 0, v)
  | n + 1, d, s, v => do
    let c ← v.read s
    if c ≠ 0 then
      let v ← v.write d c
      strncpyLoop n (d + 1) (s + 1) v
    else return (d, n + 1, v)

/-- The second loop, which fills up with NULs. -/
def strncpyPad : Nat → Addr → View → Res View
  | 0, _, v => .ok v
  | n + 1, d, v => do
    let v ← v.write d 0
    strncpyPad n (d + 1) v

def strncpy (dst src : Addr) (n : Word) (v : View) : Res (Addr × View) := do
  let (d, n, v) ← strncpyLoop n.toNat dst src v
  let v ← strncpyPad n d v
  return (dst, v)

/-- `while (*dst != '\0') dst++;` -/
def strcatEnd (v : View) : Nat → Addr → Res Addr
  | 0, _ => .error .diverge
  | fuel + 1, dst => do
    let c ← v.read dst
    if c ≠ 0 then strcatEnd v fuel (dst + 1) else return dst

def strcat (fuel : Nat) (dst src : Addr) (v : View) : Res (Addr × View) := do
  let os := dst
  let dst ← strcatEnd v fuel dst
  let v ← strcpyLoop fuel dst src v
  return (os, v)

/-! ## Copying upwards -/

/-- No byte behind the one copied is where that one goes. -/
def Upwards (src dst : Addr) (n : Nat) : Prop :=
  ∀ i k, k < i → i < n → src + BitVec.ofNat 32 i ≠ dst + BitVec.ofNat 32 k

theorem CopiesUp.upwards {src dst : Addr} {n : Nat} (h : CopiesUp dst src n)
    (hsrc : src.toNat + n ≤ 2 ^ 32) (hdst : dst.toNat + n ≤ 2 ^ 32) : Upwards src dst n := by
  intro i k hk hi heq
  have hnat := congrArg BitVec.toNat heq
  rw [add_ofNat_toNat src (by omega), add_ofNat_toNat dst (by omega)] at hnat
  unfold CopiesUp at h
  omega

namespace Upwards
variable {src dst : Addr} {n : Nat}

theorem first (h : Upwards src dst (n + 1)) {i : Nat} (hi : i < n) :
    src + 1 + BitVec.ofNat 32 i ≠ dst := by
  have hne := h (i + 1) 0 (Nat.zero_lt_succ i) (Nat.succ_lt_succ hi)
  rwa [add_ofNat_zero, ← succ_add_ofNat] at hne

theorem tail (h : Upwards src dst (n + 1)) : Upwards (src + 1) (dst + 1) n := by
  intro i k hk hi
  rw [succ_add_ofNat, succ_add_ofNat]
  exact h (i + 1) (k + 1) (Nat.succ_lt_succ hk) (Nat.succ_lt_succ hi)

end Upwards

namespace View
variable {v v' : View} {a x : Addr} {n : Nat} {c : Byte} {s t : List Byte}

theorem Holds.drop {k : Nat} (h : v.Holds a (n + k)) : v.Holds (a + BitVec.ofNat 32 n) k := by
  intro i hi
  rw [add_ofNat_add]
  exact h (n + i) (Nat.add_lt_add_left hi n)

/-- One byte written is read back nowhere else. -/
theorem Wrote.mem_of_ne (h : Wrote v v' x [c]) {y : Addr} (hy : y ≠ x) : v'.mem y = v.mem y := by
  refine h.frame y (Nat.one_le_iff_ne_zero.mpr fun h0 => hy ?_)
  have hsub : y - x = 0 := BitVec.eq_of_toNat_eq h0
  rw [← BitVec.sub_add_cancel y x, hsub]
  exact BitVec.zero_add x

theorem Wrote.read_of_ne (h : Wrote v v' x [c]) {y : Addr} (hy : y ≠ x) : v'.read y = v.read y := by
  rw [read, read, h.inside, h.mem_of_ne hy]

/-- One byte, and others behind it. -/
theorem Wrote.cons {v'' : View} {xs : List Byte} (h : Wrote v v' a [c]) (h' : Wrote v' v'' (a + 1) xs)
    (hfit : xs.length + 1 ≤ 2 ^ 32) : Wrote v v'' a (c :: xs) := by
  refine h.append h' ?_
  rw [List.length_singleton]
  omega

theorem Str.write (h : v.Str a s) (hw : Wrote v v' x [c])
    (hne : ∀ i < s.length + 1, a + BitVec.ofNat 32 i ≠ x) : v'.Str a s where
  str := h.str.congr fun i hi => hw.mem_of_ne (hne i (Nat.lt_succ_of_le hi))
  holds := hw.holds.mpr h.holds

/-- A string is what it would be after a copy onto itself. -/
theorem Str.wrote_self (h : v.Str a s) : Wrote v v a s where
  inside := rfl
  bytes := by
    rw [h.str.bytesAt (Nat.le_succ _), List.take_left]
  frame _ _ := rfl

/-- A string with another, and its NUL, written behind it. -/
theorem Str.append (h : v.Str a s) (hw : Wrote v v' (a + BitVec.ofNat 32 s.length) (t ++ [0]))
    (ht : ∀ c ∈ t, c ≠ 0) (hroom : v.Holds a (s.length + (t.length + 1)))
    (hfit : s.length + (t.length + 1) ≤ 2 ^ 32) : v'.Str a (s ++ t) := by
  have hall : Wrote v v' a ((s ++ t) ++ [0]) := by
    rw [List.append_assoc]
    refine h.wrote_self.append hw ?_
    rwa [List.length_append, List.length_singleton]
  refine hall.str (fun c hc => ?_) ?_
  · rcases List.mem_append.mp hc with hs | ht'
    · exact h.str.ne_zero hs
    · exact ht c ht'
  · rwa [List.length_append, Nat.add_assoc]

/-! ## `strcpy` and `strcat` -/

theorem strcpyLoop_returns {dst src : Addr} (hs : v.Str src s) (hd : v.Holds dst (s.length + 1))
    (hup : Upwards src dst (s.length + 1)) (hfit : s.length + 1 ≤ 2 ^ 32) :
    ∃ v', Returns (fun fuel => strcpyLoop fuel dst src v) v' ∧ Wrote v v' dst (s ++ [0]) := by
  induction s generalizing v dst src with
  | nil =>
    obtain ⟨v₁, hwrite, hwrote⟩ := write_wrote (c := 0) hd.first
    refine ⟨v₁, Returns.succ (.of_forall fun fuel => ?_), hwrote⟩
    rw [strcpyLoop, hs.read_nil, ok_bind, hwrite, ok_bind, if_neg (not_not.mpr rfl)]
    rfl
  | cons c s ih =>
    rw [List.length_cons] at hd hup hfit
    obtain ⟨v₁, hwrite, hwrote⟩ := write_wrote (c := c) hd.first
    obtain ⟨v₂, hret, hrest⟩ := ih (hs.tail.write hwrote fun i hi => hup.first hi)
      (hwrote.holds.mpr hd.tail) hup.tail (by omega)
    have hlen : (s ++ [0]).length + 1 ≤ 2 ^ 32 := by
      rw [List.length_append, List.length_singleton]
      omega
    refine ⟨v₂, Returns.succ ?_, hwrote.cons hrest hlen⟩
    simp only [strcpyLoop, hs.read_cons, ok_bind, hwrite, ne_eq, hs.ne_zero, not_false_eq_true, if_true]
    exact hret

theorem strcatEnd_returns (h : v.Str a s) :
    Returns (fun fuel => strcatEnd v fuel a) (a + BitVec.ofNat 32 s.length) := by
  induction s generalizing a with
  | nil =>
    refine Returns.succ (.of_forall fun fuel => ?_)
    rw [strcatEnd, h.read_nil, ok_bind, if_neg (not_not.mpr rfl)]
    exact congrArg Except.ok (add_ofNat_zero a).symm
  | cons c s ih =>
    refine Returns.succ ?_
    simp only [strcatEnd, h.read_cons, ok_bind, ne_eq, h.ne_zero, not_false_eq_true, if_true]
    rw [List.length_cons, ← succ_add_ofNat]
    exact ih h.tail

/-- What `strcat` needs: its strings, the room for the result, and a source that the copy to the end of
`dst` does not run into. -/
structure CatRoom (v : View) (dst src : Addr) (s t : List Byte) : Prop where
  target : v.Str dst s
  source : v.Str src t
  room : v.Holds dst (s.length + (t.length + 1))
  fits : dst.toNat + (s.length + (t.length + 1)) ≤ 2 ^ 32
  sourceFits : src.toNat + (t.length + 1) ≤ 2 ^ 32
  copiesUp : CopiesUp (dst + BitVec.ofNat 32 s.length) src (t.length + 1)

/-- **`strcat`** appends. It returns `dst`, which is the string `s` followed by the string `t`, in every view
that has the two strings and the room for the result in it; the bytes written are those of `t` and its NUL
behind `s`. For the empty `s` it is `strcpy`. -/
theorem strcat_appends {dst src : Addr} (h : CatRoom v dst src s t) :
    ∃ v', Returns (fun fuel => strcat fuel dst src v) (dst, v') ∧ v'.Str dst (s ++ t) ∧
      Wrote v v' (dst + BitVec.ofNat 32 s.length) (t ++ [0]) ∧
      (s = [] → Returns (fun fuel => strcpy fuel dst src v) (dst, v')) := by
  have hfits := h.fits
  have hend : (dst + BitVec.ofNat 32 s.length).toNat = dst.toNat + s.length :=
    add_ofNat_toNat dst (by omega)
  have hup : Upwards src (dst + BitVec.ofNat 32 s.length) (t.length + 1) :=
    h.copiesUp.upwards h.sourceFits (by omega)
  obtain ⟨v', hret, hwrote⟩ := strcpyLoop_returns h.source h.room.drop hup (by omega)
  have hstr : v'.Str dst (s ++ t) :=
    h.target.append hwrote (fun c hc => h.source.str.ne_zero hc) h.room (by omega)
  refine ⟨v', ?_, hstr, hwrote, ?_⟩
  · exact (strcatEnd_returns h.target).bind (hret.bind (.of_ok rfl))
  · rintro rfl
    rw [List.length_nil, add_ofNat_zero] at hret
    exact hret.bind (.of_ok rfl)

/-- "ab" in front of its own last two bytes: the copy is downwards in memory, and the strings overlap. -/
theorem strcat_appends_overlap : ∃ v', Returns
    (fun fuel => strcat fuel 0x1000 0x1002 ⟨(View.texts [0x61, 0, 0x62, 0x63] []).mem, fun _ => true⟩)
      (0x1000, v') ∧ v'.Str 0x1000 [0x61, 0x62, 0x63] := by
  have h : CatRoom ⟨(View.texts [0x61, 0, 0x62, 0x63] []).mem, fun _ => true⟩ 0x1000 0x1002 [0x61]
      [0x62, 0x63] :=
    ⟨⟨by decide, by decide⟩, ⟨by decide, by decide⟩, by decide, by decide, by decide, Or.inl (by decide)⟩
  obtain ⟨v', hret, hstr, -⟩ := strcat_appends h
  exact ⟨v', hret, hstr⟩

/-! ## `strncpy` -/

/-- What `strncpy` can see of its source: `s` is the string there, or the first `n` bytes of it. -/
def Cut (v : View) : Addr → Nat → List Byte → Prop
  | _, 0, s => s = []
  | a, _ + 1, [] => v.read a = .ok 0
  | a, n + 1, c :: s => c ≠ 0 ∧ v.read a = .ok c ∧ Cut v (a + 1) n s

theorem Str.cut (h : v.Str a s) (n : Nat) : v.Cut a n (s.take n) := by
  induction n generalizing a s with
  | zero => rfl
  | succ n ih =>
    cases s with
    | nil => exact h.read_nil
    | cons c s => exact ⟨h.ne_zero, h.read_cons, ih h.tail⟩

theorem Cut.length_le (h : v.Cut a n s) : s.length ≤ n := by
  induction n generalizing a s with
  | zero =>
    obtain rfl : s = [] := h
    exact Nat.le_refl 0
  | succ n ih =>
    cases s with
    | nil => exact Nat.zero_le _
    | cons c s => exact Nat.succ_le_succ (ih h.2.2)

theorem Cut.congr (h : v.Cut a n s) (hsame : ∀ i < min n (s.length + 1),
    v'.read (a + BitVec.ofNat 32 i) = v.read (a + BitVec.ofNat 32 i)) : v'.Cut a n s := by
  induction n generalizing a s with
  | zero => exact h
  | succ n ih =>
    have hfirst := hsame 0 (by omega)
    rw [add_ofNat_zero] at hfirst
    cases s with
    | nil => exact hfirst.trans h
    | cons c s =>
      refine ⟨h.1, hfirst.trans h.2.1, ih h.2.2 fun i hi => ?_⟩
      rw [succ_add_ofNat]
      exact hsame (i + 1) (by rw [List.length_cons]; omega)

theorem strncpyLoop_ok {dst src : Addr} (hs : v.Cut src n s) (hd : v.Holds dst n)
    (hup : Upwards src dst (min n (s.length + 1))) (hfit : n ≤ 2 ^ 32) :
    ∃ v', strncpyLoop n dst src v = .ok (dst + BitVec.ofNat 32 s.length, n - s.length, v') ∧
      Wrote v v' dst s := by
  induction n generalizing v dst src s with
  | zero =>
    obtain rfl : s = [] := hs
    refine ⟨v, ?_, Wrote.refl v dst⟩
    rw [List.length_nil, add_ofNat_zero]
    rfl
  | succ n ih =>
    cases s with
    | nil =>
      have hnul : v.read src = .ok 0 := hs
      refine ⟨v, ?_, Wrote.refl v dst⟩
      rw [strncpyLoop, hnul, ok_bind, if_neg (not_not.mpr rfl), List.length_nil, add_ofNat_zero]
      rfl
    | cons c s =>
      obtain ⟨hc, hread, hrest⟩ := hs
      have hmin : min (n + 1) ((c :: s).length + 1) = min n (s.length + 1) + 1 := by
        rw [List.length_cons]
        omega
      rw [hmin] at hup
      have hlen := hrest.length_le
      obtain ⟨v₁, hwrite, hwrote⟩ := write_wrote (c := c) hd.first
      have hcut : v₁.Cut (src + 1) n s := hrest.congr fun i hi => hwrote.read_of_ne (hup.first hi)
      obtain ⟨v₂, hloop, hwrote'⟩ := ih hcut (hwrote.holds.mpr hd.tail) hup.tail (by omega)
      refine ⟨v₂, ?_, hwrote.cons hwrote' (by omega)⟩
      rw [strncpyLoop, hread, ok_bind, if_pos hc, hwrite, ok_bind, hloop, List.length_cons,
        Nat.succ_sub_succ, succ_add_ofNat]

theorem strncpyPad_ok {d : Addr} (hd : v.Holds d n) (hfit : n ≤ 2 ^ 32) :
    ∃ v', strncpyPad n d v = .ok v' ∧ Wrote v v' d (List.replicate n 0) := by
  induction n generalizing v d with
  | zero => exact ⟨v, rfl, Wrote.refl v d⟩
  | succ n ih =>
    obtain ⟨v₁, hwrite, hwrote⟩ := write_wrote (c := 0) hd.first
    obtain ⟨v₂, hloop, hwrote'⟩ := ih (hwrote.holds.mpr hd.tail) (by omega)
    refine ⟨v₂, ?_, hwrote.cons hwrote' (by rwa [List.length_replicate])⟩
    rw [strncpyPad, hwrite, ok_bind, hloop]

/-- The bytes of a field of `n` bytes for the text `s`. -/
def padded (n : Nat) (s : List Byte) : List Byte := s ++ List.replicate (n - s.length) 0

/-- A field holds a NUL just when the text is shorter than it. -/
theorem zero_mem_padded_iff (hs : ∀ c ∈ s, c ≠ 0) : 0 ∈ padded n s ↔ s.length < n := by
  rw [padded, List.mem_append, List.mem_replicate]
  constructor
  · rintro (h0 | ⟨hne, -⟩)
    · exact absurd rfl (hs 0 h0)
    · omega
  · intro hlt
    exact Or.inr ⟨by omega, rfl⟩

theorem Cut.ne_zero (h : v.Cut a n s) : ∀ c ∈ s, c ≠ 0 := by
  induction n generalizing a s with
  | zero =>
    obtain rfl : s = [] := h
    exact fun c hc => absurd hc List.not_mem_nil
  | succ n ih =>
    cases s with
    | nil => exact fun c hc => absurd hc List.not_mem_nil
    | cons c s => exact List.forall_mem_cons.mpr ⟨h.1, ih h.2.2⟩

theorem length_padded (h : s.length ≤ n) : (padded n s).length = n := by
  rw [padded, List.length_append, List.length_replicate]
  omega

/-- A field with room for its NUL is a string. -/
theorem Wrote.padded_str (h : Wrote v v' a (padded n s)) (hs : ∀ c ∈ s, c ≠ 0) (hd : v.Holds a n)
    (hlt : s.length < n) : v'.Str a s := by
  obtain ⟨k, hk⟩ : ∃ k, n - s.length = 1 + k := Nat.exists_eq_add_of_le (by omega)
  have hn : n = s.length + 1 + k := by omega
  have hbytes := h.bytes
  rw [length_padded hlt.le, padded, hk, hn, bytesAt_append, List.replicate_add, ← List.append_assoc] at hbytes
  refine ⟨strAt_of_bytesAt hs (List.append_inj_left hbytes ?_), h.holds.mpr (hd.mono hlt)⟩
  rw [length_bytesAt, List.length_append]
  rfl

theorem Wrote.padded_str_iff (h : Wrote v v' a (padded n s)) (hs : ∀ c ∈ s, c ≠ 0) (hd : v.Holds a n)
    (hlen : s.length ≤ n) : s.length < n ↔ ∃ t, v'.Str a t ∧ t.length < n := by
  refine ⟨fun hlt => ⟨s, h.padded_str hs hd hlt, hlt⟩, ?_⟩
  rintro ⟨t, ht, hlt⟩
  have hmem : 0 ∈ bytesAt v'.mem a n := by
    refine List.mem_iff_getElem.mpr ⟨t.length, by rwa [length_bytesAt], ?_⟩
    rw [getElem_bytesAt, ht.str.nul]
  have hbytes := h.bytes
  rw [length_padded hlen] at hbytes
  rw [hbytes] at hmem
  exact (zero_mem_padded_iff hs).mp hmem

/-- **`strncpy`** fills a field. In every view of `n` bytes at `dst` and of the source as far as its NUL or
its first `n` bytes, it returns `dst`, and has written these `n` bytes and no others: the text and NULs
behind it. They end in a NUL, and are a string, just when the text is shorter than `n`. -/
theorem strncpy_pads {dst src : Addr} {n : Word} (hs : v.Cut src n.toNat s) (hd : v.Holds dst n.toNat)
    (hsrc : src.toNat + min n.toNat (s.length + 1) ≤ 2 ^ 32) (hdst : dst.toNat + n.toNat ≤ 2 ^ 32)
    (hup : CopiesUp dst src (min n.toNat (s.length + 1))) :
    ∃ v', strncpy dst src n v = .ok (dst, v') ∧ Wrote v v' dst (padded n.toNat s) ∧
      (s.length < n.toNat ↔ ∃ t, v'.Str dst t ∧ t.length < n.toNat) ∧
      (s.length < n.toNat → v'.Str dst s) := by
  have hlen := hs.length_le
  have hfit : n.toNat ≤ 2 ^ 32 := n.isLt.le
  obtain ⟨v₁, hloop, hwrote⟩ := strncpyLoop_ok hs hd (hup.upwards hsrc (by omega)) hfit
  have hrest : v.Holds (dst + BitVec.ofNat 32 s.length) (n.toNat - s.length) := by
    refine Holds.drop ?_
    rwa [Nat.add_sub_cancel' hlen]
  obtain ⟨v₂, hpad, hwrote'⟩ := strncpyPad_ok (hwrote.holds.mpr hrest) (by omega)
  have hall : Wrote v v₂ dst (padded n.toNat s) := by
    refine hwrote.append hwrote' ?_
    rw [List.length_replicate]
    omega
  refine ⟨v₂, ?_, hall, hall.padded_str_iff hs.ne_zero hd hlen, hall.padded_str hs.ne_zero hd⟩
  rw [strncpy, hloop, ok_bind]
  simp only
  rw [hpad]
  rfl

/-- "abc" cut to a field of two bytes, which is no string then. -/
theorem strncpy_pads_cut : ∃ v',
    strncpy 0x2000 0x1000 2 (View.texts [0x61, 0x62, 0x63] [1, 1]) = .ok (0x2000, v') ∧
      bytesAt v'.mem 0x2000 2 = [0x61, 0x62] ∧ ¬∃ t, v'.Str 0x2000 t ∧ t.length < 2 := by
  have hs : (View.texts [0x61, 0x62, 0x63] [1, 1]).Str 0x1000 [0x61, 0x62, 0x63] :=
    ⟨by decide, by decide⟩
  have hd : (View.texts [0x61, 0x62, 0x63] [1, 1]).Holds 0x2000 2 := by decide
  obtain ⟨v', hret, hwrote, hiff, -⟩ := strncpy_pads (n := 2) (hs.cut 2) hd (by decide) (by decide)
    (Or.inr (by decide))
  exact ⟨v', hret, hwrote.bytes, fun ht => absurd (hiff.mpr ht) (by decide)⟩

end View

end TuixOS
