import TuixOS.StrCopy

/-!
# `strncat` of `lib/string.c`

The second loop ends for want of `n` or behind the NUL it has just copied, and the store behind the loops
serves both. In the second case it is one byte behind the terminator, where the buffer may have ended
(`strncat_iff`).
-/

namespace TuixOS

open Lib

/-- A store where only the addresses of `writable` may be written: the source may lie right behind the buffer,
in view and not for writing. -/
def View.store (writable : Addr → Bool) (v : View) (a : Addr) (b : Byte) : Res View :=
  if writable a then v.write a b else .error .fault

/-- `while (n > 0 && (*dst++ = *src++) != '\0') n--;`: `dst` behind it. -/
def strncatLoop (writable : Addr → Bool) : Nat → Addr → Addr → View → Res (Addr × View)
  | 0, dst, _, v => .ok (dst, v)
  | n + 1, dst, src, v => do
    let c ← v.read src
    let v ← v.store writable dst c
    if c ≠ 0 then strncatLoop writable n (dst + 1) (src + 1) v else return (dst + 1, v)

def strncat (writable : Addr → Bool) (fuel : Nat) (dst src : Addr) (n : Word) (v : View) :
    Res (Addr × View) := do
  let os := dst
  let dst ← strcatEnd v fuel dst
  let (dst, v) ← strncatLoop writable n.toNat dst src v
  let v ← v.store writable dst 0
  return (os, v)

/-! ## The loop -/

/-- The `n` bytes from `a` on may be written. -/
abbrev Writable (writable : Addr → Bool) (a : Addr) (n : Nat) : Prop := View.Holds ⟨fun _ => 0, writable⟩ a n

namespace View
variable {v : View} {writable : Addr → Bool} {n : Nat} {s : List Byte} {c : Byte}

theorem store_wrote {a : Addr} (hw : writable a = true) (h : v.inside a = true) :
    ∃ v', v.store writable a c = .ok v' ∧ Wrote v v' a [c] := by
  rw [store, if_pos hw]
  exact write_wrote h

/-- The second loop copies what it can see of the source, with the NUL if `n` reaches that far. -/
theorem strncatLoop_ok {dst src : Addr} (hs : v.Cut src n s) (hd : v.Holds dst (min n (s.length + 1)))
    (hw : Writable writable dst (min n (s.length + 1))) (hup : Upwards src dst (min n (s.length + 1)))
    (hfit : min n (s.length + 1) ≤ 2 ^ 32) :
    ∃ v', strncatLoop writable n dst src v = .ok (dst + BitVec.ofNat 32 (min n (s.length + 1)), v') ∧
      Wrote v v' dst ((s ++ [0]).take n) := by
  induction n generalizing v dst src s with
  | zero =>
    refine ⟨v, ?_, Wrote.refl v dst⟩
    rw [Nat.zero_min, add_ofNat_zero]
    rfl
  | succ n ih =>
    cases s with
    | nil =>
      have hnul : v.read src = .ok 0 := hs
      have hmin : min (n + 1) (([] : List Byte).length + 1) = 1 := by
        rw [List.length_nil]
        omega
      rw [hmin] at hd hw ⊢
      obtain ⟨v₁, hstore, hwrote⟩ := store_wrote (c := 0) hw.first hd.first
      refine ⟨v₁, ?_, ?_⟩
      · rw [strncatLoop, hnul, ok_bind, hstore, ok_bind, if_neg (not_not.mpr rfl)]
        rfl
      · rwa [List.nil_append, List.take_succ_cons, List.take_nil]
    | cons c s =>
      obtain ⟨hc, hread, hrest⟩ := hs
      have hmin : min (n + 1) ((c :: s).length + 1) = min n (s.length + 1) + 1 := by
        rw [List.length_cons]
        omega
      rw [hmin] at hd hw hup hfit ⊢
      obtain ⟨v₁, hstore, hwrote⟩ := store_wrote (c := c) hw.first hd.first
      have hcut : v₁.Cut (src + 1) n s := hrest.congr fun i hi => hwrote.read_of_ne (hup.first hi)
      obtain ⟨v₂, hloop, hwrote'⟩ := ih hcut (hwrote.holds.mpr hd.tail) hw.tail hup.tail (by omega)
      have hlen : ((s ++ [0]).take n).length + 1 ≤ 2 ^ 32 := by
        rw [List.length_take, List.length_append, List.length_singleton]
        omega
      refine ⟨v₂, ?_, hwrote.cons hwrote' hlen⟩
      rw [strncatLoop, hread, ok_bind, hstore, ok_bind, if_pos hc, hloop, succ_add_ofNat]

end View

/-! ## The result -/

/-- The strings at `dst` and `src`, and the buffer for the result, apart from the source. -/
structure CatInput (m : Mem) (dst src : Addr) (n : Nat) (s t : List Byte) : Prop where
  target : StrAt m dst s
  source : StrAt m src t
  room : dst.toNat + (s.length + min n t.length + 1) ≤ 2 ^ 32
  sourceFits : src.toNat + (t.length + 1) ≤ 2 ^ 32
  apart : dst.toNat + (s.length + min n t.length + 1) ≤ src.toNat ∨
    src.toNat + (t.length + 1) ≤ dst.toNat

/-- The buffer of `strlen(dst) + min(n, strlen(src)) + 1` bytes and the source may be read, and the buffer
may be written. What else may be, is open. -/
structure CatAccess (inside writable : Addr → Bool) (dst src : Addr) (n : Nat) (s t : List Byte) :
    Prop where
  buffer : ∀ i < s.length + min n t.length + 1, inside (dst + BitVec.ofNat 32 i) = true
  source : ∀ i < t.length + 1, inside (src + BitVec.ofNat 32 i) = true
  writable : Writable writable dst (s.length + min n t.length + 1)

/-- Nothing but a buffer may be written. -/
def bufferOnly (dst : Addr) (size : Nat) (x : Addr) : Bool := (x - dst).toNat < size

/-- Whatever else may be touched, `strncat` returns `dst`, which is the old string and the first `n` bytes of
the other, and it has written these and the NUL behind them, and nothing else. -/
def Concatenates (m : Mem) (dst src : Addr) (n : Word) (s t : List Byte) : Prop :=
  ∀ inside writable, CatAccess inside writable dst src n.toNat s t →
    ∃ v', Returns (fun fuel => strncat writable fuel dst src n ⟨m, inside⟩) (dst, v') ∧
      v'.Str dst (s ++ t.take n.toNat) ∧
      View.Wrote ⟨m, inside⟩ v' (dst + BitVec.ofNat 32 s.length) (t.take n.toNat ++ [0])

namespace CatInput
variable {m : Mem} {dst src : Addr} {n : Word} {s t : List Byte} {inside writable : Addr → Bool}

theorem upwards (h : CatInput m dst src n.toNat s t) :
    Upwards src (dst + BitVec.ofNat 32 s.length) (min n.toNat (t.length + 1)) := by
  have hroom := h.room
  have hsource := h.sourceFits
  have hapart := h.apart
  intro i k hk hi heq
  have hnat := congrArg BitVec.toNat heq
  rw [add_ofNat_add, add_ofNat_toNat src (by omega), add_ofNat_toNat dst (by omega)] at hnat
  omega

theorem target_str (h : CatInput m dst src n.toNat s t)
    (ha : CatAccess inside writable dst src n.toNat s t) : View.Str ⟨m, inside⟩ dst s :=
  ⟨h.target, fun i hi => ha.buffer i (by omega)⟩

theorem source_str (h : CatInput m dst src n.toNat s t)
    (ha : CatAccess inside writable dst src n.toNat s t) : View.Str ⟨m, inside⟩ src t :=
  ⟨h.source, ha.source⟩

/-- The second loop stays inside the buffer, also when it copies the NUL. -/
theorem loop_ok (h : CatInput m dst src n.toNat s t)
    (ha : CatAccess inside writable dst src n.toNat s t) :
    ∃ v', strncatLoop writable n.toNat (dst + BitVec.ofNat 32 s.length) src ⟨m, inside⟩ =
        .ok (dst + BitVec.ofNat 32 (s.length + min n.toNat (t.length + 1)), v') ∧
      View.Wrote ⟨m, inside⟩ v' (dst + BitVec.ofNat 32 s.length) ((t ++ [0]).take n.toNat) := by
  have hroom := h.room
  have hsource := h.sourceFits
  -- the bytes that the loop looks at: with `n` beyond the string they are the whole of it
  have hcut := (h.source_str ha).cut n.toNat
  have hlen : min n.toNat ((t.take n.toNat).length + 1) = min n.toNat (t.length + 1) := by
    rw [List.length_take]
    omega
  have hd : View.Holds ⟨m, inside⟩ (dst + BitVec.ofNat 32 s.length) (min n.toNat (t.length + 1)) := by
    refine View.Holds.drop fun i hi => ha.buffer i ?_
    omega
  have hw : Writable writable (dst + BitVec.ofNat 32 s.length) (min n.toNat (t.length + 1)) :=
    View.Holds.drop (ha.writable.mono (by omega))
  obtain ⟨v', hloop, hwrote⟩ := View.strncatLoop_ok hcut (hlen ▸ hd) (hlen ▸ hw) (hlen ▸ h.upwards)
    (by omega)
  rw [hlen, add_ofNat_add] at hloop
  refine ⟨v', hloop, ?_⟩
  rcases le_or_gt n.toNat t.length with hn | hn
  · rw [List.take_append_of_le_length (by rw [List.length_take]; omega), List.take_take,
      Nat.min_self] at hwrote
    rwa [List.take_append_of_le_length hn]
  · rwa [List.take_of_length_le hn.le] at hwrote

/-- The loop has ended for want of `n`: the store behind it is for the terminator. -/
theorem concatenates_of_le (h : CatInput m dst src n.toNat s t) (hn : n.toNat ≤ t.length) :
    Concatenates m dst src n s t := by
  intro inside writable ha
  have hroom := h.room
  have hcount : min n.toNat (t.length + 1) = n.toNat := by omega
  have hmin : min n.toNat t.length = n.toNat := by omega
  have hbuffer : View.Holds ⟨m, inside⟩ dst (s.length + n.toNat + 1) := by
    rw [← hmin]
    exact ha.buffer
  have hwritable := ha.writable
  rw [hmin] at hwritable
  obtain ⟨v₁, hloop, hwrote⟩ := h.loop_ok ha
  rw [hcount] at hloop
  rw [List.take_append_of_le_length hn] at hwrote
  have hlen : (t.take n.toNat).length = n.toNat := by rw [List.length_take, hmin]
  have hlast : v₁.inside (dst + BitVec.ofNat 32 (s.length + n.toNat)) = true := by
    rw [hwrote.inside]
    exact hbuffer _ (Nat.lt_succ_self _)
  obtain ⟨v₂, hstore, hwrote'⟩ := View.store_wrote (c := 0) (hwritable _ (Nat.lt_succ_self _)) hlast
  have htext : View.Wrote ⟨m, inside⟩ v₂ (dst + BitVec.ofNat 32 s.length) (t.take n.toNat ++ [0]) := by
    refine hwrote.append ?_ (by rw [hlen, List.length_singleton]; omega)
    rwa [hlen, add_ofNat_add]
  have hnul : ∀ c ∈ t.take n.toNat, c ≠ 0 := fun c hc => h.source.ne_zero (List.mem_of_mem_take hc)
  have hstr : v₂.Str dst (s ++ t.take n.toNat) := by
    refine (h.target_str ha).append htext hnul ?_ ?_
    · rwa [hlen]
    · rw [hlen]
      omega
  refine ⟨v₂, (View.strcatEnd_returns (h.target_str ha)).bind (.of_ok ?_), hstr, htext⟩
  rw [hloop, ok_bind]
  simp only
  rw [hstore]
  rfl

/-- The loop has copied the NUL: the store behind it is for the byte behind the terminator. -/
theorem strncat_of_lt (h : CatInput m dst src n.toNat s t) (hn : t.length < n.toNat)
    (ha : CatAccess inside writable dst src n.toNat s t) :
    ∃ v₁, View.Wrote ⟨m, inside⟩ v₁ (dst + BitVec.ofNat 32 s.length) (t ++ [0]) ∧
      ∀ r, Returns (fun fuel => strncat writable fuel dst src n ⟨m, inside⟩) r ↔
        ∃ v', v₁.store writable (dst + BitVec.ofNat 32 (s.length + t.length + 1)) 0 = .ok v' ∧
          r = (dst, v') := by
  have hcount : s.length + min n.toNat (t.length + 1) = s.length + t.length + 1 := by omega
  obtain ⟨v₁, hloop, hwrote⟩ := h.loop_ok ha
  rw [hcount] at hloop
  have htake : (t ++ [0]).take n.toNat = t ++ [0] := by
    refine List.take_of_length_le ?_
    rwa [List.length_append, List.length_singleton]
  rw [htake] at hwrote
  refine ⟨v₁, hwrote, fun r => ?_⟩
  have hend := View.strcatEnd_returns (h.target_str ha)
  constructor
  · intro hret
    obtain ⟨k, hk⟩ := Returns.of_bind hend hret
    have hrest := hk k le_rfl
    rw [hloop, ok_bind] at hrest
    simp only at hrest
    obtain ⟨v', hstore, hpair⟩ := bind_eq_ok.mp hrest
    exact ⟨v', hstore, (Except.ok.inj hpair).symm⟩
  · rintro ⟨v', hstore, rfl⟩
    refine hend.bind (.of_ok ?_)
    rw [hloop, ok_bind]
    simp only
    rw [hstore]
    rfl

theorem concatenates_le (h : CatInput m dst src n.toNat s t) (hcat : Concatenates m dst src n s t) :
    n.toNat ≤ t.length := by
  by_contra hgt
  have hn : t.length < n.toNat := Nat.lt_of_not_le hgt
  have hroom := h.room
  have hsource := h.sourceFits
  have hapart := h.apart
  have hmin : s.length + min n.toNat t.length + 1 = s.length + t.length + 1 := by omega
  rw [hmin] at hroom hapart
  have haccess : CatAccess (fun _ => true) (bufferOnly dst (s.length + t.length + 1)) dst src n.toNat
      s t := by
    refine ⟨fun _ _ => rfl, fun _ _ => rfl, fun i hi => ?_⟩
    show bufferOnly dst (s.length + t.length + 1) (dst + BitVec.ofNat 32 i) = true
    rw [bufferOnly, BitVec.add_comm, BitVec.add_sub_cancel, BitVec.toNat_ofNat, decide_eq_true_eq]
    exact lt_of_le_of_lt (Nat.mod_le _ _) (by omega)
  obtain ⟨v', hret, -⟩ := hcat _ _ haccess
  obtain ⟨v₁, -, hiff⟩ := h.strncat_of_lt hn haccess
  obtain ⟨v'', hstore, -⟩ := (hiff _).mp hret
  have hout : bufferOnly dst (s.length + t.length + 1)
      (dst + BitVec.ofNat 32 (s.length + t.length + 1)) = false := by
    rw [bufferOnly, BitVec.add_comm, BitVec.add_sub_cancel, BitVec.toNat_ofNat,
      Nat.mod_eq_of_lt (by omega), decide_eq_false_iff_not]
    exact Nat.lt_irrefl _
  rw [View.store, hout] at hstore
  cases hstore

end CatInput

/-- **`strncat`** leaves the concatenation and writes nothing else, so that a buffer for the result is enough,
just when `n` does not reach behind the string at `src`. -/
theorem strncat_iff {m : Mem} {dst src : Addr} {n : Word} {s t : List Byte}
    (h : CatInput m dst src n.toNat s t) : Concatenates m dst src n s t ↔ n.toNat ≤ t.length :=
  ⟨h.concatenates_le, h.concatenates_of_le⟩

/-- "a" with a 'z' behind the room for one more character, and "b". -/
def catMem : Mem := fun x =>
  if x = 0x1000 then 0x61 else if x = 0x1003 then 0x7A else if x = 0x2000 then 0x62 else 0

theorem catInput_catMem (n : Nat) : CatInput catMem 0x1000 0x2000 n [0x61] [0x62] := by
  have h1 : (0x1000 : Addr).toNat = 0x1000 := rfl
  have h2 : (0x2000 : Addr).toNat = 0x2000 := rfl
  constructor
  · decide
  · decide
  · simp only [List.length_cons, List.length_nil]
    omega
  · decide
  · simp only [List.length_cons, List.length_nil]
    omega

theorem strncat_iff_one : Concatenates catMem 0x1000 0x2000 1 [0x61] [0x62] :=
  (strncat_iff (n := 1) (catInput_catMem 1)).mpr (by decide)

/-- With two characters asked for, the 'z' is lost where it may be written, and where it may not be, the call
does not return. -/
theorem strncat_two : ¬Concatenates catMem 0x1000 0x2000 2 [0x61] [0x62] ∧
    ∃ v', Returns (fun fuel => strncat (fun _ => true) fuel 0x1000 0x2000 2 ⟨catMem, fun _ => true⟩)
      (0x1000, v') ∧ catMem 0x1003 = 0x7A ∧ v'.mem 0x1003 = 0 := by
  have h := catInput_catMem 2
  have haccess : CatAccess (fun _ => true) (fun _ => true) 0x1000 0x2000 2 [0x61] [0x62] :=
    ⟨fun _ _ => rfl, fun _ _ => rfl, fun _ _ => rfl⟩
  refine ⟨fun hcat => absurd (CatInput.concatenates_le (n := 2) h hcat) (by decide), ?_⟩
  obtain ⟨v₁, hwrote, hiff⟩ := CatInput.strncat_of_lt (n := 2) h (by decide) haccess
  have hin : v₁.inside 0x1003 = true := by rw [hwrote.inside]
  obtain ⟨v₂, hstore, hwrote'⟩ : ∃ v₂, v₁.store (fun _ => true) 0x1003 0 = .ok v₂ ∧
      View.Wrote v₁ v₂ 0x1003 [0] := View.store_wrote rfl hin
  exact ⟨v₂, (hiff _).mpr ⟨v₂, hstore, rfl⟩, rfl, List.head_eq_of_cons_eq hwrote'.bytes⟩

end TuixOS
