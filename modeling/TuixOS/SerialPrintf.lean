import TuixOS.Serial

/-!
# `serial_printf` of `kernel/drivers/serial.c`

The function reads its format through a pointer that it advances twice for a conversion, and takes
its arguments from the stack behind the pointer to the format. The addresses at which it looks for characters of the
format, and the arguments it takes, are recorded. What it should print is said from the format as a
list of pieces (`pieces`): `Renders` relates pieces, arguments and text. `serial_printf_iff` says for
which formats and arguments the text is the one printed.
-/

namespace TuixOS

open Lib

namespace Serial

/-! ## The function -/

structure Printf where
  uart : Uart
  /-- `va_list` -/
  args : Addr
  /-- The arguments taken, in order. -/
  taken : List Word

namespace Printf

/-- `va_arg`, for any type of four bytes. -/
def vaArg (m : Mem) (s : Printf) : Word × Printf :=
  let arg := load32 m s.args
  (arg, { s with args := s.args + 4, taken := s.taken ++ [arg] })

def print (s : Printf) (f : Uart → Res Uart) : Res Printf := do
  let uart ← f s.uart
  return { s with uart := uart }

end Printf

/-- The `switch` on the character behind a `%`. -/
def conversion (m : Mem) (fuel : Nat) (c : Byte) (s : Printf) : Res Printf :=
  if c = chr 's' then
    let (str, s) := s.vaArg m
    s.print (serialPutString m fuel str)
  else if c = chr 'c' then
    let (ch, s) := s.vaArg m
    s.print (serialPutchar fuel (ch.setWidth 8))
  else if c = chr 'd' then
    let (num, s) := s.vaArg m
    s.print (serialPrintInt fuel num.toInt 10)
  else if c = chr 'x' then
    let (num, s) := s.vaArg m
    s.print (serialPrintHex fuel num)
  else if c = chr 'p' then do
    let (ptr, s) := s.vaArg m
    let s ← s.print (serialPutchar fuel (chr '0'))
    let s ← s.print (serialPutchar fuel (chr 'x'))
    s.print (serialPrintHex fuel ptr)
  else if c = chr '%' then s.print (serialPutchar fuel (chr '%'))
  else do
    let s ← s.print (serialPutchar fuel (chr '%'))
    s.print (serialPutchar fuel c)

/-- `while (*format)`, with the addresses of the characters looked at so far. -/
def printfLoop (m : Mem) : Nat → Addr → List Addr → Printf → Res (List Addr × Printf)
  | 0, _, _, _ => .error .diverge
  | fuel + 1, format, looked, s =>
    let looked := looked ++ [format]
    if m format = 0 then .ok (looked, s)
    else if m format = chr '%' then do
      let format := format + 1
      let looked := looked ++ [format]
      let s ← conversion m fuel (m format) s
      printfLoop m fuel (format + 1) looked s
    else do
      let s ← s.print (serialPutchar fuel (m format))
      printfLoop m fuel (format + 1) looked s

/-- `serial_printf`, with its parameter `format` at the address `last`. The state is that before
`va_end`, which clears the function's own pointer. -/
def serialPrintf (m : Mem) (fuel : Nat) (last : Addr) (u : Uart) : Res (List Addr × Printf) :=
  let format := load32 m last
  let args := last + 4
  printfLoop m fuel format [] ⟨u, args, []⟩

/-! ## Formats -/

/-- A piece of a format. -/
inductive Piece
  | literal (c : Byte)
  | str
  | char
  | dec
  | hex
  | ptr
  | percent
  | unknown (c : Byte)
  /-- A `%` with nothing behind it. -/
  | lone
  deriving DecidableEq

/-- The conversion of a character behind a `%`. -/
def conversionOf (c : Byte) : Piece :=
  if c = chr 's' then .str
  else if c = chr 'c' then .char
  else if c = chr 'd' then .dec
  else if c = chr 'x' then .hex
  else if c = chr 'p' then .ptr
  else if c = chr '%' then .percent
  else .unknown c

theorem conversionOf_ne_lone (c : Byte) : conversionOf c ≠ .lone := by
  unfold conversionOf
  split_ifs <;> exact Piece.noConfusion

theorem conversionOf_eq_dec {c : Byte} (h : conversionOf c = .dec) : c = chr 'd' := by
  unfold conversionOf at h
  split_ifs at h
  assumption

def pieces : List Byte → List Piece
  | [] => []
  | [c] => if c = chr '%' then [.lone] else [.literal c]
  | c :: d :: f => if c = chr '%' then conversionOf d :: pieces f else .literal c :: pieces (d :: f)

def Piece.takesArg : Piece → Bool
  | .str | .char | .dec | .hex | .ptr => true
  | _ => false

/-- The arguments of a piece and its text. -/
inductive Gives (m : Mem) : Piece → List Word → List Byte → Prop
  | literal (c : Byte) : Gives m (.literal c) [] [c]
  | str {w : Word} {s : List Byte} (h : StrAt m w s) : Gives m .str [w] s
  | char (w : Word) : Gives m .char [w] [w.setWidth 8]
  | dec (w : Word) : Gives m .dec [w] (decimal w.toInt)
  | hex (w : Word) : Gives m .hex [w] (hexadecimal w.toNat)
  | ptr (w : Word) : Gives m .ptr [w] (hexadecimal w.toNat)
  | percent : Gives m .percent [] [chr '%']
  | unknown (c : Byte) : Gives m (.unknown c) [] [chr '%', c]
  | lone : Gives m .lone [] [chr '%']

/-- The arguments of a list of pieces and their text, from left to right. -/
inductive Renders (m : Mem) : List Piece → List Word → List Byte → Prop
  | nil : Renders m [] [] []
  | cons {p : Piece} {ps : List Piece} {us ws : List Word} {s t : List Byte} (hp : Gives m p us s)
      (hps : Renders m ps ws t) : Renders m (p :: ps) (us ++ ws) (s ++ t)

/-- The arguments lie behind one another. -/
def ArgsAt (m : Mem) (a : Addr) (ws : List Word) : Prop :=
  ∀ i (hi : i < ws.length), load32 m (a + BitVec.ofNat 32 (4 * i)) = ws[i]

/-- The conversions that take an argument, with their arguments. -/
def conversions (ps : List Piece) (ws : List Word) : List (Piece × Word) :=
  (ps.filter Piece.takesArg).zip ws

theorem pieces_literal {c : Byte} (hc : c ≠ chr '%') (f : List Byte) :
    pieces (c :: f) = .literal c :: pieces f := by
  cases f with
  | nil => exact if_neg hc
  | cons d f => rw [pieces, if_neg hc]

theorem pieces_conversion (d : Byte) (f : List Byte) :
    pieces (chr '%' :: d :: f) = conversionOf d :: pieces f := by
  rw [pieces, if_pos rfl]

/-- Induction along the pieces of a format. -/
theorem pieces_induction {P : List Byte → Prop} (nil : P []) (lone : P [chr '%'])
    (literal : ∀ c f, c ≠ chr '%' → P f → P (c :: f))
    (conversion : ∀ d f, P f → P (chr '%' :: d :: f)) : ∀ f, P f
  | [] => nil
  | [c] => by
    by_cases hc : c = chr '%'
    · rw [hc]
      exact lone
    · exact literal c [] hc nil
  | c :: d :: f => by
    by_cases hc : c = chr '%'
    · rw [hc]
      exact conversion d f (pieces_induction nil lone literal conversion f)
    · exact literal c (d :: f) hc (pieces_induction nil lone literal conversion (d :: f))

section Pieces
variable {m : Mem} {a : Addr} {p : Piece} {ps : List Piece} {us ws : List Word} {s t : List Byte}

/-- A piece has one argument, if it takes one. -/
theorem Gives.args (h : Gives m p us t) : us.length = if p.takesArg then 1 else 0 := by
  cases h <;> rfl

theorem Renders.cons_inv (h : Renders m (p :: ps) ws t) : ∃ us vs s u, ws = us ++ vs ∧ t = s ++ u ∧
    Gives m p us s ∧ Renders m ps vs u := by
  cases h with
  | cons hp hps => exact ⟨_, _, _, _, rfl, rfl, hp, hps⟩

theorem conversions_cons (h : Gives m p us t) :
    conversions (p :: ps) (us ++ ws) = us.map (p, ·) ++ conversions ps ws := by
  have hlen := h.args
  rw [conversions, List.filter_cons]
  cases hp : p.takesArg with
  | true =>
    rw [hp] at hlen
    obtain ⟨w, rfl⟩ := List.length_eq_one_iff.mp hlen
    rfl
  | false =>
    rw [hp] at hlen
    obtain rfl := List.length_eq_zero_iff.mp hlen
    rfl

theorem ArgsAt.append (h : ArgsAt m a (us ++ ws)) :
    ArgsAt m a us ∧ ArgsAt m (a + BitVec.ofNat 32 (4 * us.length)) ws := by
  refine ⟨fun i hi => ?_, fun i hi => ?_⟩
  · rw [h i (by rw [List.length_append]; omega), List.getElem_append_left hi]
  · have hword := h (us.length + i) (by rw [List.length_append]; omega)
    rw [List.getElem_append_right (Nat.le_add_right _ _)] at hword
    rw [add_ofNat_add, ← Nat.mul_add, hword]
    congr 1
    omega

theorem ArgsAt.head {w : Word} (h : ArgsAt m a (w :: ws)) : load32 m a = w := by
  have hfirst := h 0 (Nat.zero_lt_succ _)
  rwa [Nat.mul_zero, BitVec.add_zero] at hfirst

end Pieces

/-! ## Conversions -/

/-- What the code prints for a piece with the text `t`. -/
def Piece.printed (p : Piece) (t : List Byte) : List Byte :=
  if p = .ptr then chr '0' :: chr 'x' :: t else t

/-- The code has taken the arguments `us` and printed `t`. -/
structure Wrote (s s' : Printf) (us : List Word) (t : List Byte) : Prop where
  sent : s'.uart.sent = s.uart.sent ++ t
  args : s'.args = s.args + BitVec.ofNat 32 (4 * us.length)
  taken : s'.taken = s.taken ++ us
  ready : EventuallyReady s'.uart

section Conversion
variable {m : Mem} {s s' s'' : Printf} {us ws : List Word} {t u : List Byte} {c : Byte} {w : Word}
  {f : Nat → Uart → Res Uart}

theorem Wrote.refl (hu : EventuallyReady s.uart) : Wrote s s [] [] where
  sent := (List.append_nil _).symm
  args := (BitVec.add_zero _).symm
  taken := (List.append_nil _).symm
  ready := hu

theorem Wrote.trans (h : Wrote s s' us t) (h' : Wrote s' s'' ws u) :
    Wrote s s'' (us ++ ws) (t ++ u) where
  sent := by rw [h'.sent, h.sent, List.append_assoc]
  args := by rw [h'.args, h.args, add_ofNat_add, ← Nat.mul_add, List.length_append]
  taken := by rw [h'.taken, h.taken, List.append_assoc]
  ready := h'.ready

theorem Wrote.args_nil (h : Wrote s s' [] t) : s'.args = s.args := by
  rw [h.args]
  exact BitVec.add_zero _

theorem print_returns (h : Prints f t) (hu : EventuallyReady s.uart) :
    ∃ s', Returns (fun fuel => s.print (f fuel)) s' ∧ Wrote s s' [] t := by
  obtain ⟨u', hret, hsent, hu'⟩ := h s.uart hu
  refine ⟨{ s with uart := u' }, hret.bind (.of_ok rfl), hsent, ?_, (List.append_nil _).symm, hu'⟩
  exact (BitVec.add_zero _).symm

/-- The argument is taken, and a text printed from it. -/
theorem vaArg_print_returns (g : Word → Nat → Uart → Res Uart) (h : Prints (g w) t)
    (harg : load32 m s.args = w) (hu : EventuallyReady s.uart) :
    ∃ s', Returns (fun fuel => (s.vaArg m).2.print (g (s.vaArg m).1 fuel)) s' ∧
      Wrote s s' [w] t := by
  have htake : Wrote s (s.vaArg m).2 [w] [] := by
    refine ⟨(List.append_nil _).symm, rfl, ?_, hu⟩
    rw [← harg]
    rfl
  obtain ⟨s', hret, hwrote⟩ := print_returns (s := (s.vaArg m).2) h hu
  refine ⟨s', ?_, htake.trans hwrote⟩
  rw [← harg] at hret
  exact hret

theorem print_print (s : Printf) (f g : Uart → Res Uart) :
    (s.print f >>= fun s => s.print g) = s.print fun u => f u >>= g := by
  simp only [Printf.print, bind_assoc, pure_bind]

/-- A conversion other than that of `INT_MIN` prints its text. -/
theorem conversion_returns (hgives : Gives m (conversionOf c) us t) (hargs : ArgsAt m s.args us)
    (hu : EventuallyReady s.uart) (hok : conversionOf c = .dec → ∀ w ∈ us, w.toInt ≠ intMin) :
    ∃ s', Returns (fun fuel => conversion m fuel c s) s' ∧
      Wrote s s' us ((conversionOf c).printed t) := by
  have hzero := serialPutchar_prints (chr '0')
  have hpercent := serialPutchar_prints (chr '%')
  unfold conversionOf at hgives hok ⊢
  unfold conversion
  by_cases hs : c = chr 's'
  · simp only [if_pos hs] at hgives ⊢
    cases hgives with
    | str h =>
      exact vaArg_print_returns (fun w fuel => serialPutString m fuel w) (serialPutString_prints h)
        hargs.head hu
  simp only [if_neg hs] at hgives hok ⊢
  by_cases hc : c = chr 'c'
  · simp only [if_pos hc] at hgives ⊢
    cases hgives with
    | char w =>
      exact vaArg_print_returns (fun w fuel => serialPutchar fuel (w.setWidth 8))
        (serialPutchar_prints _) hargs.head hu
  simp only [if_neg hc] at hgives hok ⊢
  by_cases hd : c = chr 'd'
  · simp only [if_pos hd] at hgives hok ⊢
    cases hgives with
    | dec w =>
      obtain ⟨hmin, hmax⟩ := toInt_bounds (hok trivial w (List.mem_singleton.mpr rfl))
      exact vaArg_print_returns (fun w fuel => serialPrintInt fuel w.toInt 10)
        (serialPrintInt_prints hmin hmax) hargs.head hu
  simp only [if_neg hd] at hgives ⊢
  by_cases hx : c = chr 'x'
  · simp only [if_pos hx] at hgives ⊢
    cases hgives with
    | hex w =>
      exact vaArg_print_returns (fun w fuel => serialPrintHex fuel w) (serialPrintHex_prints w)
        hargs.head hu
  simp only [if_neg hx] at hgives ⊢
  by_cases hp : c = chr 'p'
  · simp only [if_pos hp, print_print] at hgives ⊢
    cases hgives with
    | ptr w =>
      -- the prefix, and that of `serial_print_hex`
      have hprefix := hzero.bind ((serialPutchar_prints (chr 'x')).bind (serialPrintHex_prints w))
      exact vaArg_print_returns (fun w fuel u => serialPutchar fuel (chr '0') u >>= fun u =>
        serialPutchar fuel (chr 'x') u >>= serialPrintHex fuel w) hprefix hargs.head hu
  simp only [if_neg hp] at hgives ⊢
  by_cases hlast : c = chr '%'
  · simp only [if_pos hlast] at hgives ⊢
    cases hgives with
    | percent => exact print_returns hpercent hu
  · simp only [if_neg hlast, print_print] at hgives ⊢
    cases hgives with
    | unknown => exact print_returns (hpercent.bind (serialPutchar_prints c)) hu

/-- The negation of `INT_MIN` has no behaviour. -/
theorem conversion_overflow (hgives : Gives m (conversionOf c) us t) (hargs : ArgsAt m s.args us)
    (hdec : conversionOf c = .dec) (hw : w ∈ us) (hmin : w.toInt = intMin) (fuel : Nat) :
    conversion m fuel c s = .error .overflow := by
  have harg : (load32 m s.args).toInt = intMin := by
    rw [hdec] at hgives
    cases hgives
    rw [hargs.head, ← List.mem_singleton.mp hw, hmin]
  obtain rfl := conversionOf_eq_dec hdec
  have hzero : intMin ≠ 0 := by decide
  have hneg : intMin < 0 := by decide
  simp only [conversion, Printf.vaArg, Printf.print, serialPrintInt, harg, if_neg hzero, negInt]
  simp only [hneg, and_self, decide_true, if_true]
  rfl

end Conversion

/-! ## The loop -/

/-- No lone `%`, and no `%d` for `INT_MIN`. -/
def Clean (ps : List Piece) (ws : List Word) : Prop :=
  Piece.lone ∉ ps ∧ ∀ w, (Piece.dec, w) ∈ conversions ps ws → w.toInt ≠ intMin

/-- The text `t'` is `t`, but that each `%p` has added two characters. -/
structure Doubles (ps : List Piece) (t t' : List Byte) : Prop where
  length : t'.length = t.length + 2 * ps.count .ptr
  same : Piece.ptr ∉ ps → t' = t

section Texts
variable {m : Mem} {p : Piece} {ps : List Piece} {us ws : List Word} {s t t' : List Byte}

theorem clean_cons (h : Gives m p us s) : Clean (p :: ps) (us ++ ws) ↔
    (p ≠ .lone ∧ (p = .dec → ∀ w ∈ us, w.toInt ≠ intMin)) ∧ Clean ps ws := by
  simp only [Clean, conversions_cons h, List.mem_cons, List.mem_append, List.mem_map,
    Prod.mk.injEq]
  grind

theorem Doubles.nil : Doubles [] [] [] := ⟨rfl, fun _ => rfl⟩

theorem Doubles.cons (h : Doubles ps t t') : Doubles (p :: ps) (s ++ t) (p.printed s ++ t') where
  length := by
    rw [List.length_append, List.length_append, h.length, List.count_cons, Piece.printed]
    by_cases hp : p = .ptr
    · simp only [hp, if_true, List.length_cons, beq_self_eq_true]
      omega
    · simp only [if_neg hp, beq_eq_false_iff_ne.mpr hp, Bool.false_eq_true, if_false]
      omega
  same hnot := by
    rw [List.mem_cons, not_or] at hnot
    rw [h.same hnot.2, Piece.printed, if_neg (Ne.symm hnot.1)]

end Texts

section Loop
variable {m : Mem} {format : Addr} {looked looked' : List Addr} {s s' : Printf} {f : List Byte}
  {ws : List Word} {t : List Byte} {fuel : Nat}

theorem printfLoop_literal (h0 : m format ≠ 0) (h : m format ≠ chr '%') (fuel : Nat) :
    printfLoop m (fuel + 1) format looked s = s.print (serialPutchar fuel (m format)) >>= fun s =>
      printfLoop m fuel (format + 1) (looked ++ [format]) s := by
  rw [printfLoop, if_neg h0, if_neg h]

theorem printfLoop_conversion (h : m format = chr '%') (fuel : Nat) :
    printfLoop m (fuel + 1) format looked s = conversion m fuel (m (format + 1)) s >>= fun s =>
      printfLoop m fuel (format + 1 + 1) (looked ++ [format] ++ [format + 1]) s := by
  have h0 : m format ≠ 0 := by
    rw [h]
    decide
  rw [printfLoop, if_neg h0, if_pos h]

/-- The loop looks at the character that it starts at, and forgets none it has looked at. -/
theorem printfLoop_looks (h : printfLoop m fuel format looked s = .ok (looked', s')) :
    looked ⊆ looked' ∧ format ∈ looked' := by
  induction fuel generalizing format looked s with
  | zero => cases h
  | succ fuel ih =>
    by_cases h0 : m format = 0
    · rw [printfLoop, if_pos h0] at h
      cases h
      exact ⟨List.subset_append_left _ _, List.mem_append_right _ (List.mem_singleton.mpr rfl)⟩
    by_cases hpercent : m format = chr '%'
    · rw [printfLoop_conversion hpercent] at h
      obtain ⟨s₁, -, h⟩ := bind_eq_ok.mp h
      obtain ⟨hsub, -⟩ := ih h
      exact ⟨fun a ha => hsub (by simp [ha]), hsub (by simp)⟩
    · rw [printfLoop_literal h0 hpercent] at h
      obtain ⟨s₁, -, h⟩ := bind_eq_ok.mp h
      obtain ⟨hsub, -⟩ := ih h
      exact ⟨fun a ha => hsub (by simp [ha]), hsub (by simp)⟩

/-- The addresses in `looked'` are those in `looked` and the first `n + 1` from `format` on. -/
def LooksAt (format : Addr) (n : Nat) (looked looked' : List Addr) : Prop :=
  ∀ a ∈ looked', a ∈ looked ∨ ∃ i ≤ n, a = format + BitVec.ofNat 32 i

theorem add_one_add_one (a : Addr) : a + 1 + 1 = a + BitVec.ofNat 32 2 := add_ofNat_add a 1 1

theorem LooksAt.single (format : Addr) (looked : List Addr) :
    LooksAt format 0 looked (looked ++ [format]) := by
  intro a ha
  rcases List.mem_append.mp ha with ha | ha
  · exact .inl ha
  · exact .inr ⟨0, le_refl 0, by rw [List.mem_singleton.mp ha, BitVec.add_zero]⟩

theorem LooksAt.trans {k n : Nat} {looked₁ : List Addr} (h : LooksAt format k looked looked₁)
    (h' : LooksAt (format + BitVec.ofNat 32 (k + 1)) n looked₁ looked') :
    LooksAt format (n + (k + 1)) looked looked' := by
  intro a ha
  rcases h' a ha with ha | ⟨i, hi, rfl⟩
  · rcases h a ha with ha | ⟨i, hi, rfl⟩
    · exact .inl ha
    · exact .inr ⟨i, by omega, rfl⟩
  · exact .inr ⟨k + 1 + i, by omega, add_ofNat_add _ _ _⟩

/-- A clean format is printed, and only its own characters are looked at. -/
theorem printfLoop_prints : ∀ (f : List Byte) (looked : List Addr) {format : Addr} {s : Printf}
    {ws : List Word} {t : List Byte}, StrAt m format f → Renders m (pieces f) ws t →
    ArgsAt m s.args ws → EventuallyReady s.uart → Clean (pieces f) ws →
    ∃ looked' s' t', Returns (fun fuel => printfLoop m fuel format looked s) (looked', s') ∧
      Wrote s s' ws t' ∧ Doubles (pieces f) t t' ∧ LooksAt format f.length looked looked' := by
  refine pieces_induction ?nil ?lone ?literal ?conversion
  case nil =>
    intro looked format s ws t hstr hrenders hargs hu hclean
    have hnul : m format = 0 := hstr
    cases hrenders
    exact ⟨looked ++ [format], s, [], Returns.succ (.of_forall fun _ => if_pos hnul), .refl hu,
      .nil, .single format looked⟩
  case lone =>
    intro looked format s ws t hstr hrenders hargs hu hclean
    exact absurd (List.mem_singleton.mpr rfl) hclean.1
  case literal =>
    intro c f hc ih looked format s ws t hstr hrenders hargs hu hclean
    rw [pieces_literal hc] at hrenders hclean ⊢
    obtain ⟨hc0, hfirst, hrest⟩ := hstr
    rw [← hfirst] at hc hc0
    obtain ⟨us, ws, text, t, rfl, rfl, hgives, hrenders'⟩ := hrenders.cons_inv
    obtain ⟨-, hclean'⟩ := (clean_cons hgives).mp hclean
    cases hgives
    obtain ⟨s₁, hret, hwrote⟩ := print_returns (serialPutchar_prints c) hu
    rw [← hwrote.args_nil] at hargs
    obtain ⟨looked', s', t', hloop, hwrote', hdoubles, hlooks⟩ :=
      ih _ hrest hrenders' hargs hwrote.ready hclean'
    refine ⟨looked', s', [c] ++ t', Returns.succ ?_, hwrote.trans hwrote', hdoubles.cons, ?_⟩
    · simp only [printfLoop_literal hc0 hc, hfirst]
      exact hret.bind hloop
    · exact (LooksAt.single format looked).trans hlooks
  case conversion =>
    intro d f ih looked format s ws t hstr hrenders hargs hu hclean
    rw [pieces_conversion] at hrenders hclean ⊢
    obtain ⟨-, hpercent, -, hd, hrest⟩ := hstr
    obtain ⟨us, ws, text, t, rfl, rfl, hgives, hrenders'⟩ := hrenders.cons_inv
    obtain ⟨⟨-, hmin⟩, hclean⟩ := (clean_cons hgives).mp hclean
    obtain ⟨hargs, hargs'⟩ := hargs.append
    obtain ⟨s₁, hret, hwrote⟩ := conversion_returns hgives hargs hu hmin
    rw [← hwrote.args] at hargs'
    obtain ⟨looked', s', t', hloop, hwrote', hdoubles, hlooks⟩ :=
      ih _ hrest hrenders' hargs' hwrote.ready hclean
    refine ⟨looked', s', _, Returns.succ ?_, hwrote.trans hwrote', hdoubles.cons, ?_⟩
    · simp only [printfLoop_conversion hpercent, hd]
      exact hret.bind hloop
    · have hhead := (LooksAt.single format looked).trans (.single (format + 1) _)
      rw [add_one_add_one] at hlooks
      exact hhead.trans hlooks

/-- Otherwise the loop does not return, or looks behind the end of the format. -/
theorem printfLoop_beyond : ∀ (f : List Byte) {format : Addr} {looked looked' : List Addr}
    {s s' : Printf} {ws : List Word} {t : List Byte}, StrAt m format f → Renders m (pieces f) ws t →
    ArgsAt m s.args ws → EventuallyReady s.uart → ¬Clean (pieces f) ws →
    Returns (fun fuel => printfLoop m fuel format looked s) (looked', s') →
    format + BitVec.ofNat 32 (f.length + 1) ∈ looked' := by
  refine pieces_induction ?nil ?lone ?literal ?conversion
  case nil =>
    intro format looked looked' s s' ws t hstr hrenders hargs hu hclean hret
    refine absurd ⟨List.not_mem_nil, fun w hw => ?_⟩ hclean
    cases hw
  case lone =>
    intro format looked looked' s s' ws t hstr hrenders hargs hu hclean hret
    obtain ⟨-, hpercent, -⟩ := hstr
    obtain ⟨n, hn⟩ := hret.pred
    have hrun := hn n (le_refl n)
    simp only [printfLoop_conversion hpercent] at hrun
    obtain ⟨s₁, -, hrest⟩ := bind_eq_ok.mp hrun
    rw [add_one_add_one] at hrest
    exact (printfLoop_looks hrest).2
  case literal =>
    intro c f hc ih format looked looked' s s' ws t hstr hrenders hargs hu hclean hret
    rw [pieces_literal hc] at hrenders hclean
    obtain ⟨hc0, hfirst, hrest⟩ := hstr
    rw [← hfirst] at hc hc0
    obtain ⟨us, ws, text, t, rfl, rfl, hgives, hrenders'⟩ := hrenders.cons_inv
    rw [clean_cons hgives] at hclean
    cases hgives
    obtain ⟨s₁, hhead, hwrote⟩ := print_returns (serialPutchar_prints c) hu
    rw [← hwrote.args_nil] at hargs
    have hloop := hret.pred
    simp only [printfLoop_literal hc0 hc, hfirst] at hloop
    have hmem := ih hrest hrenders' hargs hwrote.ready (by simpa using hclean) (hhead.of_bind hloop)
    rwa [succ_add_ofNat] at hmem
  case conversion =>
    intro d f ih format looked looked' s s' ws t hstr hrenders hargs hu hclean hret
    rw [pieces_conversion] at hrenders hclean
    obtain ⟨-, hpercent, -, hd, hrest⟩ := hstr
    obtain ⟨us, ws, text, t, rfl, rfl, hgives, hrenders'⟩ := hrenders.cons_inv
    obtain ⟨hargs, hargs'⟩ := hargs.append
    rw [clean_cons hgives] at hclean
    have hloop := hret.pred
    simp only [printfLoop_conversion hpercent, hd] at hloop
    by_cases hmin : conversionOf d = .dec → ∀ w ∈ us, w.toInt ≠ intMin
    · obtain ⟨s₁, hhead, hwrote⟩ := conversion_returns hgives hargs hu hmin
      rw [← hwrote.args] at hargs'
      have hclean' : ¬Clean (pieces f) ws := fun h => hclean ⟨⟨conversionOf_ne_lone d, hmin⟩, h⟩
      have hmem := ih hrest hrenders' hargs' hwrote.ready hclean' (hhead.of_bind hloop)
      rwa [succ_add_ofNat, succ_add_ofNat] at hmem
    · push Not at hmin
      obtain ⟨hdec, w, hw, hmin⟩ := hmin
      obtain ⟨n, hn⟩ := hloop
      have hrun := hn n (le_refl n)
      simp only [conversion_overflow hgives hargs hdec hw hmin] at hrun
      cases hrun

end Loop

/-! ## The call -/

/-- The arguments of a call, and the text it should print. The format is a string at an address other
than null, from where it runs up in memory. -/
structure Call (m : Mem) (last : Addr) (f : List Byte) (ws : List Word) (t : List Byte) : Prop where
  format : StrAt m (load32 m last) f
  notNull : load32 m last ≠ 0
  noWrap : (load32 m last).toNat + f.length < 2 ^ 32
  args : ArgsAt m (last + 4) ws
  renders : Renders m (pieces f) ws t

/-- The text is printed, the arguments are taken, and no character behind the format is looked at. -/
structure Follows (m : Mem) (last : Addr) (f : List Byte) (ws : List Word) (t : List Byte) (u : Uart)
    (looked : List Addr) (s : Printf) : Prop where
  sent : s.uart.sent = u.sent ++ t
  taken : s.taken = ws
  inside : ∀ a ∈ looked, (a - load32 m last).toNat ≤ f.length

/-- **`serial_printf` and its format.** On a port that keeps becoming ready, for every format and
arguments that fit it: `serial_printf` returns, with the text of the format printed and its arguments
taken, and without looking behind the format, if and only if the format has no `%p`, does not end in
a lone `%`, and has no `%d` for `INT_MIN`. -/
theorem serial_printf_iff {m : Mem} {last : Addr} {f : List Byte} {ws : List Word} {t : List Byte}
    (h : Call m last f ws t) {u : Uart} (hu : EventuallyReady u) :
    (∃ looked s, Returns (fun fuel => serialPrintf m fuel last u) (looked, s) ∧
      Follows m last f ws t u looked s) ↔
    Piece.ptr ∉ pieces f ∧ Piece.lone ∉ pieces f ∧
      ∀ w, (Piece.dec, w) ∈ conversions (pieces f) ws → w.toInt ≠ intMin := by
  simp only [serialPrintf]
  by_cases hclean : Clean (pieces f) ws
  · obtain ⟨looked, s, t', hloop, hwrote, hdoubles, hlooks⟩ :=
      printfLoop_prints (s := ⟨u, last + 4, []⟩) f [] h.format h.renders h.args hu hclean
    refine ⟨fun ⟨looked', s', hret, hfollows⟩ => ⟨?_, hclean⟩, fun hcond => ?_⟩
    · obtain ⟨-, rfl⟩ := Prod.mk.inj (hloop.unique hret)
      have hsent : s.uart.sent = u.sent ++ t' := hwrote.sent
      have htext : t' = t := List.append_cancel_left (hsent.symm.trans hfollows.sent)
      have hcount := hdoubles.length
      rw [htext] at hcount
      exact List.count_eq_zero.mp (by omega)
    · refine ⟨looked, s, hloop, ?_, hwrote.taken, fun a ha => ?_⟩
      · rw [← hdoubles.same hcond.1]
        exact hwrote.sent
      · obtain ⟨i, hi, rfl⟩ := (hlooks a ha).resolve_left List.not_mem_nil
        have hwrap := h.noWrap
        have hlt : i < 2 ^ 32 := by omega
        rw [BitVec.add_comm, BitVec.add_sub_cancel, BitVec.toNat_ofNat, Nat.mod_eq_of_lt hlt]
        exact hi
  · refine iff_of_false ?_ fun hcond => hclean hcond.2
    rintro ⟨looked, s, hret, hfollows⟩
    have hmem := printfLoop_beyond (s := ⟨u, last + 4, []⟩) f h.format h.renders h.args hu hclean hret
    have hinside := hfollows.inside _ hmem
    have hnull : (load32 m last).toNat ≠ (0 : Addr).toNat := BitVec.toNat_ne.mp h.notNull
    have hzero : (0 : Addr).toNat = 0 := rfl
    have hwrap := h.noWrap
    have hlt : f.length + 1 < 2 ^ 32 := by omega
    rw [BitVec.add_comm, BitVec.add_sub_cancel, BitVec.toNat_ofNat, Nat.mod_eq_of_lt hlt] at hinside
    omega

/-- A port that is ready at once. -/
def readyUart : Uart := ⟨fun _ => 0x20, []⟩

theorem eventuallyReady_readyUart : EventuallyReady readyUart :=
  fun n => ⟨n, le_refl n, show (0x20 : Byte) &&& 0x20 ≠ 0 by decide⟩

/-- A format of one conversion at 0x1000; at 0x2000, its address and the argument 7. -/
def callMem (c : Byte) : Mem := fun x =>
  if x = 0x1000 then chr '%' else if x = 0x1001 then c else if x = 0x2001 then 0x10
  else if x = 0x2004 then 7 else 0

theorem argsAt_callMem (c : Byte) : ArgsAt (callMem c) (0x2000 + 4) [7] := by
  intro i hi
  obtain rfl : i = 0 := by
    simp only [List.length_singleton] at hi
    omega
  rfl

/-- `serial_printf("%d", 7)` -/
theorem serial_printf_iff_seven : ∃ looked s,
    Returns (fun fuel => serialPrintf (callMem (chr 'd')) fuel 0x2000 readyUart) (looked, s) ∧
      Follows (callMem (chr 'd')) 0x2000 [chr '%', chr 'd'] [7] (decimal 7 ++ []) readyUart looked s := by
  have hcall : Call (callMem (chr 'd')) 0x2000 [chr '%', chr 'd'] [7] (decimal 7 ++ []) :=
    ⟨by decide, by decide, by decide, argsAt_callMem _, .cons (.dec 7) .nil⟩
  refine (serial_printf_iff hcall eventuallyReady_readyUart).mpr ⟨by decide, by decide, ?_⟩
  intro w hw
  have heq : (Piece.dec, w) = (Piece.dec, 7) := List.mem_singleton.mp hw
  rw [(Prod.mk.inj heq).2]
  decide

/-- `serial_printf("%p", 7)` prints two characters too many. -/
theorem serial_printf_pointer :
    Call (callMem (chr 'p')) 0x2000 [chr '%', chr 'p'] [7] (hexadecimal 7 ++ []) ∧
    ∃ looked s,
      Returns (fun fuel => serialPrintf (callMem (chr 'p')) fuel 0x2000 readyUart) (looked, s) ∧
      s.uart.sent ≠ readyUart.sent ++ (hexadecimal 7 ++ []) := by
  have hcall : Call (callMem (chr 'p')) 0x2000 [chr '%', chr 'p'] [7] (hexadecimal 7 ++ []) :=
    ⟨by decide, by decide, by decide, argsAt_callMem _, .cons (.ptr 7) .nil⟩
  have hclean : Clean (pieces [chr '%', chr 'p']) [7] := by
    refine ⟨by decide, fun w hw => ?_⟩
    have heq : (Piece.dec, w) = (Piece.ptr, 7) := List.mem_singleton.mp hw
    cases heq
  obtain ⟨looked, s, t', hloop, hwrote, hdoubles, -⟩ := printfLoop_prints
    (s := ⟨readyUart, 0x2000 + 4, []⟩) _ [] hcall.format hcall.renders hcall.args
    eventuallyReady_readyUart hclean
  refine ⟨hcall, looked, s, hloop, fun hsent => ?_⟩
  have htext : t' = hexadecimal 7 ++ [] := List.append_cancel_left (hwrote.sent.symm.trans hsent)
  have hlen := hdoubles.length
  rw [htext] at hlen
  revert hlen
  decide

end Serial

end TuixOS
