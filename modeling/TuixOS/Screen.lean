import TuixOS.SerialPrintf

/-!
# `kprintf` of `kernel/drivers/screen.c`

The text is put together in `buffer`, whose bytes up to `pos` are kept; `stores` records which bytes of
the local arrays are written. Each branch of the loop adds a text behind the others as far as there is
room (`Formatted`), so that the whole is the first 127 characters of what the format stands for.
-/

namespace TuixOS

open Lib

namespace Screen

open Serial (chr digit decimal nextInt ArgsAt)

/-! ## The functions -/

/-- The local arrays. -/
inductive Local
  | buffer
  | numBuf
  | hexBuf
  deriving DecidableEq

structure Formatter where
  buffer : List Byte
  /-- `va_list` -/
  args : Addr
  stores : List (Local × Nat)

namespace Formatter

def pos (s : Formatter) : Nat := s.buffer.length

/-- `buffer[pos++] = c;` -/
def put (c : Byte) (s : Formatter) : Formatter :=
  { s with buffer := s.buffer ++ [c], stores := s.stores ++ [(.buffer, s.pos)] }

/-- `va_arg` -/
def vaArg (m : Mem) (s : Formatter) : Word × Formatter := (load32 m s.args, { s with args := s.args + 4 })

/-- `for (int j = 0; text[j] != '\0' && pos < 127; j++)`, with `127 - pos` rounds left. -/
def putText (text : Nat → Byte) : Nat → Nat → Formatter → Formatter
  | 0, _, s => s
  | rounds + 1, j, s => if text j ≠ 0 then putText text rounds (j + 1) (s.put (text j)) else s

def putString (m : Mem) (str : Addr) (s : Formatter) : Formatter :=
  if str ≠ 0 then s.putText (fun j => m (str + BitVec.ofNat 32 j)) (127 - s.pos) 0 else s

/-- `while (num > 0 && j < 15)`, with `15 - j` rounds left and the characters of `num_buf` up to `j`. -/
def numDigits : Nat → Int → List Byte → Formatter → List Byte × Formatter
  | 0, _, numBuf, s => (numBuf, s)
  | rounds + 1, num, numBuf, s =>
    if num > 0 then
      numDigits rounds (num.tdiv 10) (numBuf ++ [BitVec.ofInt 8 (0x30 + num.tmod 10)])
        { s with stores := s.stores ++ [(.numBuf, numBuf.length)] }
    else (numBuf, s)

/-- `while (j > 0 && pos < 127)`, with the characters of `num_buf` from the last on. -/
def putBack : List Byte → Formatter → Formatter
  | [], s => s
  | c :: cs, s => if s.pos < 127 then putBack cs (s.put c) else s

def putInt (num : Int) (s : Formatter) : Formatter :=
  if num = 0 then if s.pos < 127 then s.put (chr '0') else s
  else
    let (numBuf, s) := numDigits 15 num [] s
    putBack numBuf.reverse s

/-- `digit < 10 ? '0' + digit : 'A' + digit - 10` -/
def hexChar (digit : Nat) : Byte :=
  BitVec.ofNat 8 (if digit < 10 then 0x30 + digit else 0x41 + digit - 10)

/-- `hex_buf`, filled from the highest digit on, and its NUL. -/
def hexBuf (num : Word) : List Byte :=
  ((List.range 8).reverse.map fun j => hexChar ((num >>> (j * 4)) &&& 0xF).toNat) ++ [0]

def putHex (num : Word) (s : Formatter) : Formatter :=
  let s := { s with stores := s.stores ++ (List.range 9).map fun j => (Local.hexBuf, j) }
  s.putText (fun j => (hexBuf num).getD j 0) (127 - s.pos) 0

end Formatter

/-- The body of the loop: the index it leaves, and the state. -/
def kprintfBody (m : Mem) (fmt : Addr) (i : Nat) (s : Formatter) : Res (Nat × Formatter) :=
  let c := m (fmt + BitVec.ofNat 32 i)
  if c = chr '%' then do
    let next ← nextInt i
    let d := m (fmt + BitVec.ofNat 32 next)
    if d = chr 's' then
      let (str, s) := s.vaArg m
      let i ← nextInt i
      return (i, s.putString m str)
    else if d = chr 'd' then
      let (num, s) := s.vaArg m
      let i ← nextInt i
      return (i, s.putInt num.toInt)
    else if d = chr 'x' then
      let (num, s) := s.vaArg m
      let i ← nextInt i
      return (i, s.putHex num)
    else return (i, s.put c)
  else return (i, s.put c)

/-- `for (int i = 0; fmt[i] != '\0' && pos < 127; i++)` -/
def kprintfLoop (m : Mem) (fmt : Addr) : Nat → Nat → Formatter → Res Formatter
  | 0, _, _ => .error .diverge
  | fuel + 1, i, s =>
    if m (fmt + BitVec.ofNat 32 i) ≠ 0 ∧ s.pos < 127 then do
      let (i, s) ← kprintfBody m fmt i s
      let i ← nextInt i
      kprintfLoop m fmt fuel i s
    else .ok s

/-- `kprintf` up to its call of `kprint`, with its parameter `fmt` at the address `last`. -/
def kprintfBuffer (m : Mem) (fuel : Nat) (last : Addr) : Res Formatter := do
  let fmt := load32 m last
  let s ← kprintfLoop m fmt fuel 0 ⟨[], last + 4, []⟩
  return s.put 0

def putChar (c : Byte) (row col : Int) (m : Mem) : Mem :=
  if row < 0 ∨ row ≥ 25 ∨ col < 0 ∨ col ≥ 80 then m
  else
    let video := p2v 0xB8000 + BitVec.ofInt 32 ((row * 80 + col) * 2)
    store8 (store8 m video c) (video + 1) 0x0E

/-- `for (int i = 0; str[i] != '\0'; i++)`, for the bytes of an array from `i` on. -/
def kprintLoop (row col : Int) : List Byte → Int → Mem → Res Mem
  | [], _, _ => .error .fault
  | c :: str, i, m =>
    if c ≠ 0 then
      if col + i > intMax then .error .overflow
      else kprintLoop row col str (i + 1) (putChar c row (col + i) m)
    else .ok m

def kprint (row col : Int) (str : List Byte) (m : Mem) : Res Mem := kprintLoop row col str 0 m

def kprintf (m : Mem) (fuel : Nat) (row col : Int) (last : Addr) : Res Mem := do
  let s ← kprintfBuffer m fuel last
  kprint row col s.buffer m

/-! ## Formats -/

inductive Piece
  | literal (c : Byte)
  | str
  | dec
  | hex
  deriving DecidableEq

/-- The conversion of a character behind a `%`. -/
def conversionOf (c : Byte) : Option Piece :=
  if c = chr 's' then some .str
  else if c = chr 'd' then some .dec
  else if c = chr 'x' then some .hex
  else none

/-- A `%` without a conversion behind it stands for itself. -/
def pieces : List Byte → List Piece
  | [] => []
  | [c] => [.literal c]
  | c :: d :: f =>
    match if c = chr '%' then conversionOf d else none with
    | some p => p :: pieces f
    | none => .literal c :: pieces (d :: f)

/-- The character of a hexadecimal digit. -/
def upperDigit (d : Nat) : Byte := chr (Nat.digitChar d).toUpper

/-- The arguments of a piece and its text. A null string and a negative number have none. -/
inductive Gives (m : Mem) : Piece → List Word → List Byte → Prop
  | literal (c : Byte) : Gives m (.literal c) [] [c]
  | null : Gives m .str [0] []
  | str {w : Word} {s : List Byte} (hw : w ≠ 0) (h : StrAt m w s) : Gives m .str [w] s
  | dec (w : Word) : Gives m .dec [w] (if w.toInt < 0 then [] else decimal w.toInt)
  | hex (w : Word) : Gives m .hex [w] ((fixedDigits 16 8 w.toNat).map upperDigit)

/-- The arguments of a list of pieces and their text, however long. -/
inductive Renders (m : Mem) : List Piece → List Word → List Byte → Prop
  | nil : Renders m [] [] []
  | cons {p : Piece} {ps : List Piece} {us ws : List Word} {s t : List Byte} (hp : Gives m p us s)
      (hps : Renders m ps ws t) : Renders m (p :: ps) (us ++ ws) (s ++ t)

theorem conversionOf_cases {d : Byte} {p : Piece} (h : conversionOf d = some p) :
    d = chr 's' ∧ p = .str ∨ d = chr 'd' ∧ p = .dec ∨ d = chr 'x' ∧ p = .hex := by
  unfold conversionOf at h
  split_ifs at h with hs hd hx
  · exact .inl ⟨hs, (Option.some.inj h).symm⟩
  · exact .inr (.inl ⟨hd, (Option.some.inj h).symm⟩)
  · exact .inr (.inr ⟨hx, (Option.some.inj h).symm⟩)

theorem conversionOf_ne_literal {d : Byte} {p : Piece} (h : conversionOf d = some p) (c : Byte) :
    p ≠ .literal c := by
  obtain ⟨-, rfl⟩ | ⟨-, rfl⟩ | ⟨-, rfl⟩ := conversionOf_cases h
  all_goals exact Piece.noConfusion

theorem pieces_conversion {d : Byte} {p : Piece} (h : conversionOf d = some p) (f : List Byte) :
    pieces (chr '%' :: d :: f) = p :: pieces f := by
  rw [pieces, if_pos rfl, h]

/-- Induction along the pieces of a format. -/
theorem pieces_induction {P : List Byte → Prop} (nil : P [])
    (literal : ∀ c f, (c = chr '%' → ∀ d ∈ f.head?, conversionOf d = none) →
      pieces (c :: f) = .literal c :: pieces f → P f → P (c :: f))
    (conversion : ∀ d f p, conversionOf d = some p → P f → P (chr '%' :: d :: f)) : ∀ f, P f
  | [] => nil
  | [c] => literal c [] (fun _ d hd => by cases hd) rfl nil
  | c :: d :: f => by
    by_cases hc : c = chr '%'
    · cases hd : conversionOf d with
      | some p =>
        rw [hc]
        exact conversion d f p hd (pieces_induction nil literal conversion f)
      | none =>
        refine literal c (d :: f) (fun _ e he => ?_) ?_ (pieces_induction nil literal conversion (d :: f))
        · rwa [← Option.some.inj he]
        · rw [pieces, if_pos hc, hd]
    · refine literal c (d :: f) (fun h => absurd h hc) ?_ (pieces_induction nil literal conversion (d :: f))
      rw [pieces, if_neg hc]

/-! ## What is added to the text -/

/-- A byte of a local array: of `buffer`, of the first 15 of `num_buf`, or of `hex_buf`. -/
def Inside : Local × Nat → Prop
  | (.buffer, i) => i < 128
  | (.numBuf, j) => j < 15
  | (.hexBuf, j) => j < 9

/-- The code has taken the arguments `us` and added `t` to the text, as far as there is room. -/
structure Formatted (s s' : Formatter) (us : List Word) (t : List Byte) : Prop where
  buffer : s'.buffer = (s.buffer ++ t).take 127
  args : s'.args = s.args + BitVec.ofNat 32 (4 * us.length)
  stores : ∀ x ∈ s'.stores, x ∈ s.stores ∨ Inside x

/-- `t` has been added to the text, as far as there is room. -/
structure Added (s s' : Formatter) (t : List Byte) : Prop where
  buffer : s'.buffer = (s.buffer ++ t).take 127
  stores : ∀ x ∈ s'.stores, x ∈ s.stores ∨ Inside x

/-- A text cut off and added to is the longer text cut off. -/
theorem take_take_append (n : Nat) (xs ys : List Byte) :
    (xs.take n ++ ys).take n = (xs ++ ys).take n := by
  induction n generalizing xs with
  | zero => rfl
  | succ n ih =>
    cases xs with
    | nil => rw [List.take_nil]
    | cons x xs => rw [List.take_succ_cons, List.cons_append, List.cons_append, List.take_succ_cons,
        List.take_succ_cons, ih]

namespace Formatted
variable {m : Mem} {s s' s'' : Formatter} {us ws : List Word} {t u : List Byte} {c : Byte} {w : Word}

theorem refl (h : s.pos ≤ 127) : Formatted s s [] [] where
  buffer := by rw [List.append_nil, List.take_of_length_le h]
  args := (BitVec.add_zero _).symm
  stores _ hx := .inl hx

theorem trans (h : Formatted s s' us t) (h' : Formatted s' s'' ws u) :
    Formatted s s'' (us ++ ws) (t ++ u) where
  buffer := by rw [h'.buffer, h.buffer, take_take_append, List.append_assoc]
  args := by rw [h'.args, h.args, add_ofNat_add, ← Nat.mul_add, List.length_append]
  stores x hx := (h'.stores x hx).elim (h.stores x) .inr

theorem added (h : Formatted s s' us t) (h' : Added s' s'' u) : Added s s'' (t ++ u) where
  buffer := by rw [h'.buffer, h.buffer, take_take_append, List.append_assoc]
  stores x hx := (h'.stores x hx).elim (h.stores x) .inr

theorem pos_le (h : Formatted s s' us t) : s'.pos ≤ 127 := by
  rw [Formatter.pos, h.buffer]
  exact List.length_take_le 127 _

theorem le_pos (h : Formatted s s' us t) (hpos : s.pos ≤ 127) : s.pos ≤ s'.pos := by
  rw [Formatter.pos, Formatter.pos, h.buffer, List.length_take, List.length_append]
  exact le_min hpos (Nat.le_add_right _ _)

/-- In a full buffer nothing is added. -/
theorem full (h : s.pos = 127) (t : List Byte) : Formatted s s [] t where
  buffer := (List.take_left' h).symm
  args := (BitVec.add_zero _).symm
  stores _ hx := .inl hx

theorem put (h : s.pos < 127) (c : Byte) : Formatted s (s.put c) [] [c] where
  buffer := by
    have hlen : (s.buffer ++ [c]).length ≤ 127 := by
      rw [List.length_append, List.length_singleton]
      exact h
    exact (List.take_of_length_le hlen).symm
  args := (BitVec.add_zero _).symm
  stores x hx := by
    rcases List.mem_append.mp hx with hx | hx
    · exact .inl hx
    · rw [List.mem_singleton.mp hx]
      exact .inr (Nat.lt_succ_of_lt h)

theorem vaArg_fst (harg : ArgsAt m s.args [w]) : (s.vaArg m).1 = w := harg.head

/-- The argument is taken first, and what is made of it added. -/
theorem vaArg (m : Mem) (h : s.pos ≤ 127)
    (hadd : (s.vaArg m).2.pos ≤ 127 → Formatted (s.vaArg m).2 s' [] t) : Formatted s s' [w] t := by
  have htake : Formatted s (s.vaArg m).2 [w] [] := ⟨(refl h).buffer, rfl, fun _ hx => .inl hx⟩
  exact htake.trans (hadd htake.pos_le)

/-- Stores into the other arrays leave the text as it is. -/
theorem store {xs : List (Local × Nat)} (h : s.pos ≤ 127) (hxs : ∀ x ∈ xs, Inside x) :
    Formatted s { s with stores := s.stores ++ xs } [] [] where
  buffer := (refl h).buffer
  args := (BitVec.add_zero _).symm
  stores x hx := (List.mem_append.mp hx).imp id (hxs x)

end Formatted

section Texts
variable {m : Mem} {s : Formatter} {u : List Byte}

/-- From the index `j` on the text is `u`, with a NUL behind it. -/
def Spells (text : Nat → Byte) : Nat → List Byte → Prop
  | j, [] => text j = 0
  | j, c :: u => c ≠ 0 ∧ text j = c ∧ Spells text (j + 1) u

theorem spells_of_strAt {str : Addr} {j : Nat} (h : StrAt m (str + BitVec.ofNat 32 j) u) :
    Spells (fun j => m (str + BitVec.ofNat 32 j)) j u := by
  induction u generalizing j with
  | nil => exact h
  | cons c u ih =>
    refine ⟨h.1, h.2.1, ih ?_⟩
    rw [← add_ofNat_succ]
    exact h.2.2

theorem spells_of_list {u v : List Byte} (h : ∀ c ∈ u, c ≠ 0) :
    Spells (fun j => (v ++ u ++ [0]).getD j 0) v.length u := by
  induction u generalizing v with
  | nil => simp [Spells]
  | cons c u ih =>
    refine ⟨h c List.mem_cons_self, by simp, ?_⟩
    have hrest := ih (v := v ++ [c]) fun d hd => h d (List.mem_cons_of_mem _ hd)
    rw [List.length_append, List.length_singleton] at hrest
    rwa [List.append_assoc v [c] u] at hrest

theorem putText_formatted {text : Nat → Byte} {rounds j : Nat} (hspells : Spells text j u)
    (hpos : s.pos ≤ 127) (hrounds : rounds = 127 - s.pos) :
    Formatted s (s.putText text rounds j) [] u := by
  induction rounds generalizing j u s with
  | zero => exact .full (by omega) u
  | succ rounds ih =>
    cases u with
    | nil =>
      have hnul : text j = 0 := hspells
      rw [Formatter.putText, if_neg (not_not.mpr hnul)]
      exact .refl hpos
    | cons c u =>
      obtain ⟨hc, hfirst, hrest⟩ := hspells
      have hput := Formatted.put (s := s) (by omega) c
      have hlen : (s.put c).pos = s.pos + 1 := List.length_append
      rw [Formatter.putText, hfirst, if_pos hc]
      exact hput.trans (ih hrest hput.pos_le (by omega))

theorem putBack_formatted (hpos : s.pos ≤ 127) (cs : List Byte) :
    Formatted s (s.putBack cs) [] cs := by
  induction cs generalizing s with
  | nil => exact .refl hpos
  | cons c cs ih =>
    rw [Formatter.putBack]
    split_ifs with hroom
    · have hput := Formatted.put hroom c
      exact hput.trans (ih hput.pos_le)
    · exact .full (by omega) _

/-- The loop puts the digits behind one another, the last one first. -/
theorem numDigits_eq : ∀ (n rounds : Nat) (numBuf : List Byte) (s : Formatter), s.pos ≤ 127 →
    numBuf.length + rounds = 15 → (Nat.digits 10 n).length ≤ rounds →
    (Formatter.numDigits rounds n numBuf s).1 = numBuf ++ (Nat.digits 10 n).map digit ∧
      Formatted s (Formatter.numDigits rounds n numBuf s).2 [] [] := by
  intro n
  induction n using Nat.strong_induction_on with
  | _ n ih =>
    intro rounds numBuf s hpos hrounds hfit
    rcases Nat.eq_zero_or_pos n with rfl | hn
    · have hrun : Formatter.numDigits rounds ((0 : Nat) : Int) numBuf s = (numBuf, s) := by
        cases rounds with
        | zero => rfl
        | succ rounds => exact if_neg (by omega)
      rw [hrun, Nat.digits_zero, List.map_nil, List.append_nil]
      exact ⟨rfl, .refl hpos⟩
    · rw [Nat.digits_def' (by omega) hn] at hfit ⊢
      rw [List.length_cons] at hfit
      obtain ⟨rounds, rfl⟩ := Nat.exists_eq_add_of_le' (Nat.zero_lt_of_lt hfit)
      have hquot : (n : Int).tdiv 10 = ((n / 10 : Nat) : Int) := rfl
      have hstore : Formatted s { s with stores := s.stores ++ [(Local.numBuf, numBuf.length)] } [] [] :=
        .store hpos fun x hx => by
          rw [List.mem_singleton.mp hx]
          show numBuf.length < 15
          omega
      obtain ⟨hbuf, hrest⟩ := ih (n / 10) (by omega) rounds (numBuf ++ [digit (n % 10)]) _ hstore.pos_le
        (by rw [List.length_append, List.length_singleton]; omega) (by omega)
      rw [Formatter.numDigits, if_pos (by omega), Serial.lastDigit_eq, hquot]
      rw [List.append_assoc] at hbuf
      exact ⟨hbuf, hstore.trans hrest⟩

/-- A number is written in decimal, but that a negative one has no text. -/
theorem putInt_formatted {num : Int} (hhigh : num ≤ intMax) (hpos : s.pos ≤ 127) :
    Formatted s (s.putInt num) [] (if num < 0 then [] else decimal num) := by
  unfold Formatter.putInt
  by_cases hzero : num = 0
  · subst hzero
    rw [if_pos rfl, if_neg (lt_irrefl 0)]
    split_ifs with hroom
    · exact .put hroom (chr '0')
    · exact .full (by omega) _
  rw [if_neg hzero]
  by_cases hneg : num < 0
  · rw [if_pos hneg, Formatter.numDigits, if_neg (by omega)]
    exact .refl hpos
  · have hnat : num = num.natAbs := by omega
    have hlt : num.natAbs < 10 ^ 15 := by
      simp only [intMax] at hhigh
      omega
    have hlen : (Nat.digits 10 num.natAbs).length ≤ 15 :=
      (Nat.digits_length_le_iff (by omega) _).mpr hlt
    obtain ⟨hbuf, hstored⟩ := numDigits_eq num.natAbs 15 [] s hpos rfl hlen
    rw [← hnat] at hbuf hstored
    have htext : decimal num = (Formatter.numDigits 15 num [] s).1.reverse := by
      rw [hbuf, decimal, if_neg hneg, numeral_of_pos (by omega), List.nil_append, List.nil_append,
        List.map_reverse]
    rw [if_neg hneg, htext]
    exact hstored.trans (putBack_formatted hstored.pos_le _)

theorem hexBuf_eq (num : Word) :
    Formatter.hexBuf num = (fixedDigits 16 8 num.toNat).map upperDigit ++ [0] := by
  rw [Formatter.hexBuf, fixedDigits_eq_map, List.map_map]
  congr 1
  refine List.map_congr_left fun i _ => ?_
  have hall : ∀ d < 16, Formatter.hexChar d = upperDigit d := by decide
  rw [Serial.nibble_toNat, hall _ (Nat.mod_lt _ (by omega))]
  rfl

theorem upperDigit_ne_zero {num : Nat} {c : Byte} (hc : c ∈ (fixedDigits 16 8 num).map upperDigit) :
    c ≠ 0 := by
  rw [fixedDigits_eq_map] at hc
  obtain ⟨d, hd, rfl⟩ := List.mem_map.mp hc
  obtain ⟨i, -, rfl⟩ := List.mem_map.mp hd
  have hall : ∀ d < 16, upperDigit d ≠ 0 := by decide
  exact hall _ (Nat.mod_lt _ (by omega))

theorem putHex_formatted (num : Word) (hpos : s.pos ≤ 127) :
    Formatted s (s.putHex num) [] ((fixedDigits 16 8 num.toNat).map upperDigit) := by
  have hstore : Formatted s { s with stores := s.stores ++ (List.range 9).map fun j => (Local.hexBuf, j) }
      [] [] := .store hpos fun x hx => by
    obtain ⟨j, hj, rfl⟩ := List.mem_map.mp hx
    exact List.mem_range.mp hj
  have hspells := spells_of_list (u := (fixedDigits 16 8 num.toNat).map upperDigit) (v := [])
    fun c hc => upperDigit_ne_zero hc
  rw [List.nil_append, ← hexBuf_eq] at hspells
  exact hstore.trans (putText_formatted hspells hstore.pos_le rfl)

theorem putString_formatted {str : Word} (hstr : str ≠ 0) (h : StrAt m str u) (hpos : s.pos ≤ 127) :
    Formatted s (s.putString m str) [] u := by
  rw [Formatter.putString, if_pos hstr]
  exact putText_formatted (spells_of_strAt (by rwa [add_ofNat_zero])) hpos rfl

end Texts

/-! ## The loop -/

section Loop
variable {m : Mem} {fmt : Addr} {i : Nat} {s : Formatter} {us ws : List Word} {t : List Byte}

theorem conversionOf_zero : conversionOf 0 = none := by decide

theorem kprintfBody_literal {c : Byte} (hc : m (fmt + BitVec.ofNat 32 i) = c) (hi : (i : Int) < intMax)
    (hnext : c = chr '%' → conversionOf (m (fmt + BitVec.ofNat 32 (i + 1))) = none) :
    kprintfBody m fmt i s = .ok (i, s.put c) := by
  unfold kprintfBody
  rw [hc]
  by_cases hpercent : c = chr '%'
  · have hnone := hnext hpercent
    unfold conversionOf at hnone
    simp only [if_pos hpercent, Serial.nextInt_of_lt hi, ok_bind]
    split_ifs at hnone with hs hd hx
    rw [if_neg hs, if_neg hd, if_neg hx]
    rfl
  · simp only [if_neg hpercent]
    rfl

theorem kprintfBody_conversion {d : Byte} {p : Piece}
    (hpercent : m (fmt + BitVec.ofNat 32 i) = chr '%') (hd : m (fmt + BitVec.ofNat 32 (i + 1)) = d)
    (hp : conversionOf d = some p) (hgives : Gives m p us t) (hargs : ArgsAt m s.args us)
    (hpos : s.pos ≤ 127) (hi : (i : Int) < intMax) :
    ∃ s', kprintfBody m fmt i s = .ok (i + 1, s') ∧ Formatted s s' us t := by
  unfold kprintfBody
  simp only [hpercent, hd, Serial.nextInt_of_lt hi, ok_bind, if_true]
  obtain ⟨rfl, rfl⟩ | ⟨rfl, rfl⟩ | ⟨rfl, rfl⟩ := conversionOf_cases hp
  · refine ⟨_, rfl, ?_⟩
    cases hgives with
    | null =>
      refine Formatted.vaArg m hpos fun hpos' => ?_
      rw [Formatted.vaArg_fst hargs]
      exact .refl hpos'
    | str hw h =>
      refine Formatted.vaArg m hpos fun hpos' => ?_
      rw [Formatted.vaArg_fst hargs]
      exact putString_formatted hw h hpos'
  · refine ⟨_, rfl, ?_⟩
    cases hgives with
    | dec w =>
      refine Formatted.vaArg m hpos fun hpos' => ?_
      have hhigh : w.toInt ≤ intMax := by
        have hlt := w.toInt_lt
        unfold intMax
        omega
      rw [Formatted.vaArg_fst hargs]
      exact putInt_formatted hhigh hpos'
  · refine ⟨_, rfl, ?_⟩
    cases hgives with
    | hex w =>
      refine Formatted.vaArg m hpos fun hpos' => ?_
      rw [Formatted.vaArg_fst hargs]
      exact putHex_formatted w hpos'

theorem length_args {d : Byte} {p : Piece} (hp : conversionOf d = some p) (h : Gives m p us t) :
    us.length = 1 := by
  cases h with
  | literal c => exact absurd rfl (conversionOf_ne_literal hp c)
  | null => rfl
  | str => rfl
  | dec => rfl
  | hex => rfl

theorem Renders.cons_inv {p : Piece} {ps : List Piece} (h : Renders m (p :: ps) ws t) :
    ∃ us vs s u, ws = us ++ vs ∧ t = s ++ u ∧ Gives m p us s ∧ Renders m ps vs u := by
  cases h with
  | cons hp hps => exact ⟨_, _, _, _, rfl, rfl, hp, hps⟩

theorem kprintfLoop_step {s' : Formatter} {j fuel : Nat} (h0 : m (fmt + BitVec.ofNat 32 i) ≠ 0)
    (hroom : s.pos < 127) (hbody : kprintfBody m fmt i s = .ok (j, s')) (hj : (j : Int) < intMax) :
    kprintfLoop m fmt (fuel + 1) i s = kprintfLoop m fmt fuel (j + 1) s' := by
  rw [kprintfLoop, if_pos ⟨h0, hroom⟩, hbody, ok_bind]
  simp only [Serial.nextInt_of_lt hj, ok_bind]

/-- One round, and the rest of the loop. -/
theorem kprintfLoop_round {s₁ : Formatter} {j : Nat} {u : List Byte}
    (h0 : m (fmt + BitVec.ofNat 32 i) ≠ 0) (hroom : s.pos < 127)
    (hbody : kprintfBody m fmt i s = .ok (j, s₁)) (hj : (j : Int) < intMax) (hround : Formatted s s₁ us t)
    (hrest : ∃ s', Returns (fun fuel => kprintfLoop m fmt fuel (j + 1) s₁) s' ∧ Added s₁ s' u) :
    ∃ s', Returns (fun fuel => kprintfLoop m fmt fuel i s) s' ∧ Added s s' (t ++ u) := by
  obtain ⟨s', hret, hadded⟩ := hrest
  refine ⟨s', Returns.succ ?_, hround.added hadded⟩
  simp only [kprintfLoop_step h0 hroom hbody hj]
  exact hret

/-- The loop ends in a full buffer. -/
theorem kprintfLoop_full (t : List Byte) (hpos : s.pos ≤ 127) (hroom : ¬s.pos < 127) :
    ∃ s', Returns (fun fuel => kprintfLoop m fmt fuel i s) s' ∧ Added s s' t := by
  have hformatted := Formatted.full (s := s) (by omega) t
  exact ⟨s, Returns.succ (.of_forall fun _ => if_neg fun h => hroom h.2), hformatted.buffer,
    hformatted.stores⟩

/-- The loop ends at the end of the format or of the buffer, with the text as far as there is room. The
index stays an `int`: each character is one of the buffer, or belongs to an argument. -/
theorem kprintfLoop_returns : ∀ (f : List Byte) {i : Nat} {s : Formatter} {ws : List Word}
    {t : List Byte}, StrAt m (fmt + BitVec.ofNat 32 i) f → Renders m (pieces f) ws t →
    ArgsAt m s.args ws → s.pos ≤ 127 → i + min f.length (127 - s.pos + 2 * ws.length) < 2 ^ 31 - 1 →
    ∃ s', Returns (fun fuel => kprintfLoop m fmt fuel i s) s' ∧ Added s s' t := by
  refine pieces_induction ?nil ?literal ?conversion
  case nil =>
    intro i s ws t hstr hrenders hargs hpos hfit
    have hnul : m (fmt + BitVec.ofNat 32 i) = 0 := hstr
    cases hrenders
    exact ⟨s, Returns.succ (.of_forall fun _ => if_neg fun h => h.1 hnul), (Formatted.refl hpos).buffer,
      fun _ hx => .inl hx⟩
  case literal =>
    intro c f hnone hpieces ih i s ws t hstr hrenders hargs hpos hfit
    by_cases hroom : s.pos < 127
    · rw [hpieces] at hrenders
      obtain ⟨us, ws, text, t, rfl, rfl, hgives, hrenders'⟩ := hrenders.cons_inv
      cases hgives
      obtain ⟨hc0, hc, hrest⟩ := hstr
      rw [add_ofNat_succ] at hrest
      have hlen : (s.put c).pos = s.pos + 1 := List.length_append
      have hput := Formatted.put hroom c
      have hargs' : ArgsAt m (s.put c).args ws := hargs
      rw [List.length_cons, List.nil_append] at hfit
      have hi : (i : Int) < intMax := by
        unfold intMax
        omega
      have hnext : c = chr '%' → conversionOf (m (fmt + BitVec.ofNat 32 (i + 1))) = none := by
        intro hpercent
        cases f with
        | nil =>
          have hnul : m (fmt + BitVec.ofNat 32 (i + 1)) = 0 := hrest
          rw [hnul]
          exact conversionOf_zero
        | cons d f =>
          rw [hrest.2.1]
          exact hnone hpercent d rfl
      exact kprintfLoop_round (hc ▸ hc0) hroom (kprintfBody_literal hc hi hnext) hi hput
        (ih hrest hrenders' hargs' hput.pos_le (by omega))
    · exact kprintfLoop_full t hpos hroom
  case conversion =>
    intro d f p hp ih i s ws t hstr hrenders hargs hpos hfit
    by_cases hroom : s.pos < 127
    · rw [pieces_conversion hp] at hrenders
      obtain ⟨us, ws, text, t, rfl, rfl, hgives, hrenders'⟩ := hrenders.cons_inv
      obtain ⟨hc0, hpercent, -, hd, hrest⟩ := hstr
      rw [add_ofNat_succ] at hd hrest
      rw [add_ofNat_succ] at hrest
      have hone := length_args hp hgives
      obtain ⟨hargs, hargs'⟩ := hargs.append
      rw [List.length_cons, List.length_cons, List.length_append, hone] at hfit
      have hi : (i : Int) < intMax := by
        unfold intMax
        omega
      have hi' : ((i + 1 : Nat) : Int) < intMax := by
        unfold intMax
        omega
      obtain ⟨s₁, hbody, hround⟩ := kprintfBody_conversion hpercent hd hp hgives hargs hpos hi
      have hle := hround.le_pos hpos
      rw [← hround.args] at hargs'
      exact kprintfLoop_round (hpercent ▸ hc0) hroom hbody hi' hround
        (ih hrest hrenders' hargs' hround.pos_le (by omega))
    · exact kprintfLoop_full t hpos hroom

end Loop

/-! ## The call -/

/-- The arguments of a call, and the text that its format stands for. The arguments and the format lie
apart in memory. -/
structure Call (m : Mem) (last : Addr) (f : List Byte) (ws : List Word) (t : List Byte) : Prop where
  format : StrAt m (load32 m last) f
  args : ArgsAt m (last + 4) ws
  renders : Renders m (pieces f) ws t
  formatFits : (load32 m last).toNat + (f.length + 1) ≤ 2 ^ 32
  argsFit : last.toNat + 4 * (ws.length + 1) ≤ 2 ^ 32
  apart : last.toNat + 4 * (ws.length + 1) ≤ (load32 m last).toNat ∨
    (load32 m last).toNat + (f.length + 1) ≤ last.toNat

/-- `buffer` is the text as far as there is room, with its NUL, which is the first one; nothing outside the
arrays has been written. -/
structure Truncated (t : List Byte) (s : Formatter) : Prop where
  buffer : s.buffer = t.take 127 ++ [0]
  text : s.buffer.takeWhile (fun c => c ≠ 0) = t.take 127
  stores : ∀ x ∈ s.stores, Inside x

section Call
variable {m : Mem} {last : Addr} {f : List Byte} {ws : List Word} {t : List Byte}

theorem Gives.ne_zero {p : Piece} {us : List Word} {c : Byte} (h : Gives m p us t)
    (hp : ∀ c, p = .literal c → c ≠ 0) (hc : c ∈ t) : c ≠ 0 := by
  cases h with
  | literal d =>
    rw [List.mem_singleton.mp hc]
    exact hp d rfl
  | null => cases hc
  | str _ hstr => exact hstr.ne_zero hc
  | dec w =>
    split_ifs at hc
    · cases hc
    · exact Serial.decimal_ne_zero hc
  | hex w => exact upperDigit_ne_zero hc

/-- There is no NUL in the text of a format. -/
theorem Renders.ne_zero : ∀ (f : List Byte) {ws : List Word} {t : List Byte}, (∀ c ∈ f, c ≠ 0) →
    Renders m (pieces f) ws t → ∀ c ∈ t, c ≠ 0 := by
  refine pieces_induction ?nil ?literal ?conversion
  case nil =>
    intro ws t hf hrenders c hc
    cases hrenders
    cases hc
  case literal =>
    intro d f hnone hpieces ih ws t hf hrenders c hc
    rw [hpieces] at hrenders
    obtain ⟨us, ws, text, t, rfl, rfl, hgives, hrenders'⟩ := hrenders.cons_inv
    rcases List.mem_append.mp hc with hc | hc
    · refine hgives.ne_zero (fun e he => ?_) hc
      rw [← Piece.literal.inj he]
      exact hf d List.mem_cons_self
    · exact ih (fun e he => hf e (List.mem_cons_of_mem _ he)) hrenders' c hc
  case conversion =>
    intro d f p hp ih ws t hf hrenders c hc
    rw [pieces_conversion hp] at hrenders
    obtain ⟨us, ws, text, t, rfl, rfl, hgives, hrenders'⟩ := hrenders.cons_inv
    rcases List.mem_append.mp hc with hc | hc
    · exact hgives.ne_zero (fun e he => absurd he (conversionOf_ne_literal hp e)) hc
    · exact ih (fun e he => hf e (List.mem_cons_of_mem _ (List.mem_cons_of_mem _ he))) hrenders' c hc

/-- The index of the format stays an `int`. -/
theorem Call.index_fits (h : Call m last f ws t) :
    0 + min f.length (127 - 0 + 2 * ws.length) < 2 ^ 31 - 1 := by
  have hformat := h.formatFits
  have hargs := h.argsFit
  have hapart := h.apart
  omega

theorem Call.returns (h : Call m last f ws t) :
    ∃ s, Returns (fun fuel => kprintfBuffer m fuel last) s ∧ Truncated t s := by
  obtain ⟨s, hloop, ⟨hbuffer, hstores⟩⟩ := kprintfLoop_returns (s := ⟨[], last + 4, []⟩) f
    (by rw [add_ofNat_zero]; exact h.format) h.renders h.args (Nat.zero_le 127) h.index_fits
  rw [List.nil_append] at hbuffer
  have hne : ∀ c ∈ t.take 127, c ≠ 0 := fun c hc =>
    h.renders.ne_zero f (fun d hd => h.format.ne_zero hd) c (List.mem_of_mem_take hc)
  refine ⟨s.put 0, hloop.bind (.of_ok rfl), ?_, ?_, fun x hx => ?_⟩
  · rw [Formatter.put, hbuffer]
  · rw [Formatter.put, hbuffer, List.takeWhile_append_of_pos fun c hc => by simpa using hne c hc]
    simp
  · rcases List.mem_append.mp hx with hx | hx
    · exact (hstores x hx).resolve_left List.not_mem_nil
    · rw [List.mem_singleton.mp hx, Formatter.pos, hbuffer]
      exact Nat.lt_succ_of_le (List.length_take_le 127 t)

end Call

/-- **`kprintf` cuts off.** For every format and arguments that fit it: the buffer gets the first 127
characters of the text that the format stands for, and a NUL, no other byte than those of the local arrays
is written, and `kprint` is called with that buffer. -/
theorem kprintf_truncates {m : Mem} {last : Addr} {f : List Byte} {ws : List Word} {t : List Byte}
    (h : Call m last f ws t) (row col : Int) :
    ∃ s, Returns (fun fuel => kprintfBuffer m fuel last) s ∧ Truncated t s ∧
      ∃ n, ∀ fuel, n ≤ fuel → kprintf m fuel row col last = kprint row col (t.take 127 ++ [0]) m := by
  obtain ⟨s, hret, htruncated⟩ := h.returns
  obtain ⟨n, hn⟩ := hret
  refine ⟨s, ⟨n, hn⟩, htruncated, n, fun fuel hfuel => ?_⟩
  have hbuffer : kprintfBuffer m fuel last = .ok s := hn fuel hfuel
  rw [kprintf, hbuffer, ok_bind, htruncated.buffer]

/-- "%s%d" at 0x1000, 130 characters 'a' at 0x3000; at 0x2000, the address of the format and the arguments. -/
def longMem : Mem := fun x =>
  if x = 0x1000 ∨ x = 0x1002 then chr '%' else if x = 0x1001 then chr 's' else if x = 0x1003 then chr 'd'
  else if x = 0x2001 then 0x10 else if x = 0x2005 then 0x30 else if x = 0x2008 then 7
  else if 0x3000 ≤ x ∧ x < 0x3082 then chr 'a' else 0

/-- `kprintf(row, col, "%s%d", text, 7)` with a text of 130 characters: three of them are cut off, and so is
the number. -/
theorem kprintf_truncates_long : ∃ s,
    Returns (fun fuel => kprintfBuffer longMem fuel 0x2000) s ∧
      s.buffer = List.replicate 127 (chr 'a') ++ [0] ∧ ∃ n, ∀ fuel, n ≤ fuel →
        kprintf longMem fuel 0 0 0x2000 = kprint 0 0 (List.replicate 127 (chr 'a') ++ [0]) longMem := by
  have htext : StrAt longMem 0x3000 (List.replicate 130 (chr 'a')) := by decide +kernel
  have hargs : ArgsAt longMem (0x2000 + 4) [0x3000, 7] := by
    intro i hi
    obtain rfl | rfl : i = 0 ∨ i = 1 := by
      simp only [List.length_cons, List.length_nil] at hi
      omega
    · rfl
    · rfl
  have hcall : Call longMem 0x2000 [chr '%', chr 's', chr '%', chr 'd'] [0x3000, 7]
      (List.replicate 130 (chr 'a') ++ ([chr '7'] ++ [])) :=
    ⟨by decide, hargs, .cons (.str (by decide) htext) (.cons (.dec 7) .nil), by decide, by decide, by decide⟩
  obtain ⟨s, hret, htruncated, hshown⟩ := kprintf_truncates hcall 0 0
  have hcut : (List.replicate 130 (chr 'a') ++ ([chr '7'] ++ [])).take 127 = List.replicate 127 (chr 'a') := rfl
  rw [hcut] at hshown
  exact ⟨s, hret, htruncated.buffer.trans (by rw [hcut]), hshown⟩

/-- `kprintf(row, col, "%x", 7)` writes into `hex_buf` too. -/
theorem kprintf_hexBuf :
    Call (Serial.callMem (chr 'x')) 0x2000 [chr '%', chr 'x'] [7]
      ((fixedDigits 16 8 7).map upperDigit ++ []) ∧
    ∃ s, Returns (fun fuel => kprintfBuffer (Serial.callMem (chr 'x')) fuel 0x2000) s ∧
      ∃ x ∈ s.stores, ¬(x.1 = .buffer ∧ x.2 ≤ 127 ∨ x.1 = .numBuf ∧ x.2 < 15) := by
  refine ⟨⟨by decide, Serial.argsAt_callMem _, .cons (.hex 7) .nil, by decide, by decide, by decide⟩,
    ⟨List.replicate 7 0x30 ++ [0x37, 0], 0x2008, (List.range 9).map (fun j => (.hexBuf, j)) ++
      (List.range 9).map fun j => (.buffer, j)⟩,
    ⟨2, fun fuel hfuel => ?_⟩, (.hexBuf, 0), by decide, by decide⟩
  obtain ⟨fuel, rfl⟩ := Nat.exists_eq_add_of_le' hfuel
  rfl

end Screen

end TuixOS
