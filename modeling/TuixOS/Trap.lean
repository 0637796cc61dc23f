import TuixOS.Mmu
import TuixOS.Lib.Stack

/-!
# Trap frames: `kernel/trap/isr.c`, `kernel/asm/trap.asm`

What the CPU, the stub of a vector and `trap` push, read back as the `struct trap_frame` that
`isr_handler` gets, and what `trap_ret` and `iret` pop. The stubs push a 0 for the error code, for
the vectors where the CPU has pushed one as well: there the frame is one word off (`Trapped.shift`).
-/

namespace TuixOS

open Lib

/-- The registers, and the memory through flat segments. -/
structure X86 where
  eax : Word
  ecx : Word
  edx : Word
  ebx : Word
  esp : Addr
  ebp : Word
  esi : Word
  edi : Word
  ds : Half
  es : Half
  fs : Half
  gs : Half
  ss : Half
  cs : Half
  eip : Word
  eflags : Word
  mem : Mem

/-- Bit 1 of `eflags` is always set. -/
structure Interrupted extends X86 where
  reserved : eflags.getLsbD 1 = true

inductive Seg
  | cs | ss | ds | es | fs | gs
  deriving DecidableEq

/-- The fields of the task state segment for an entry from user mode. -/
structure Tss where
  esp0 : Addr
  ss0 : Half

namespace X86

@[simps eax ecx edx ebx ebp esi edi ds es fs gs ss cs]
def push (c : X86) (v : Word) : X86 := { c with esp := c.esp - 4, mem := store32 c.mem (c.esp - 4) v }

/-- A selector fills a word of the stack; `pad` is what the CPU leaves above it. -/
def pushSeg (pad : Seg → Half) (r : Seg) (sel : Half) (c : X86) : X86 := c.push (pad r ++ sel)

def cpl (cs : Half) : Nat := cs.toNat % 4

/-! ## Entry -/

/-- The vectors for which the CPU pushes an error code. -/
def pushesErrorCode (v : Fin 32) : Bool :=
  v = 8 ∨ 10 ≤ v ∧ v ≤ 14 ∨ v = 17 ∨ v = 21 ∨ v = 29 ∨ v = 30

/-- `TF`, `IF`, `NT`, `RF` and `VM`, which an interrupt gate clears. -/
def gateFlags : Word := 0x34300

/-- The exception `v` through the interrupt gate that `idt_set` makes, selector `0x08`. -/
def exception (tss : Tss) (pad : Seg → Half) (v : Fin 32) (err : Word) (c : X86) : X86 :=
  let d := if cpl c.cs = 0 then c
    else (pushSeg pad .ss c.ss { c with esp := tss.esp0, ss := tss.ss0 }).push c.esp
  let d := (pushSeg pad .cs c.cs (d.push c.eflags)).push c.eip
  let d := if pushesErrorCode v then d.push err else d
  { d with cs := 0x08, eflags := c.eflags &&& ~~~gateFlags }

/-- `ISR_NOERRNAME(num, name)`, the gate of each vector of `IDT_LIST_EXP`. -/
def isrStub (num : Word) (c : X86) : X86 := (c.push 0).push num

def pusha (c : X86) : X86 :=
  (((((((c.push c.eax).push c.ecx).push c.edx).push c.ebx).push c.esp).push c.ebp).push c.esi).push
    c.edi

/-- `trap` up to `push esp`, which passes the frame. -/
def trap (pad : Seg → Half) (c : X86) : X86 :=
  let d := pushSeg pad .ds c.ds c
  let d := pushSeg pad .es c.es d
  let d := pushSeg pad .fs c.fs d
  let d := pusha (pushSeg pad .gs c.gs d)
  let sel : Half := 0x10
  { d with eax := (d.eax &&& 0xFFFF0000) ||| 0x10, ds := sel, es := sel, fs := sel, gs := sel }

/-! ## Return -/

def popa (c : X86) : X86 :=
  { c with
    edi := load32 c.mem c.esp
    esi := load32 c.mem (c.esp + 4)
    ebp := load32 c.mem (c.esp + 8)
    ebx := load32 c.mem (c.esp + 16)
    edx := load32 c.mem (c.esp + 20)
    ecx := load32 c.mem (c.esp + 24)
    eax := load32 c.mem (c.esp + 28)
    esp := c.esp + 32 }

/-- `pop gs; pop fs; pop es; pop ds` -/
def popSegs (c : X86) : X86 :=
  { c with
    gs := load16 c.mem c.esp
    fs := load16 c.mem (c.esp + 4)
    es := load16 c.mem (c.esp + 8)
    ds := load16 c.mem (c.esp + 12)
    esp := c.esp + 16 }

def iret (c : X86) : X86 :=
  let d := { c with
    eip := load32 c.mem c.esp
    cs := load16 c.mem (c.esp + 4)
    eflags := load32 c.mem (c.esp + 8) }
  if cpl d.cs ≤ cpl c.cs then { d with esp := c.esp + 12 }
  else { d with esp := load32 c.mem (c.esp + 12), ss := load16 c.mem (c.esp + 16) }

def trapRet (c : X86) : X86 :=
  let d := popSegs (popa c)
  iret { d with esp := d.esp + 8 }

end X86

/-! ## The frame -/

structure TrapFrame where
  edi : Word
  esi : Word
  ebp : Word
  esp : Word
  ebx : Word
  edx : Word
  ecx : Word
  eax : Word
  gs : Half
  fs : Half
  es : Half
  ds : Half
  intNo : Word
  errCode : Word
  eip : Word
  cs : Half
  eflags : Word
  userEsp : Word
  ss : Half

/-- `sizeof(struct trap_frame)` -/
def trapFrameSize : Nat := 76

/-- The `struct trap_frame` at an address. -/
def readFrame (m : Mem) (a : Addr) : TrapFrame where
  edi := load32 m a
  esi := load32 m (a + 4)
  ebp := load32 m (a + 8)
  esp := load32 m (a + 12)
  ebx := load32 m (a + 16)
  edx := load32 m (a + 20)
  ecx := load32 m (a + 24)
  eax := load32 m (a + 28)
  gs := load16 m (a + 32)
  fs := load16 m (a + 36)
  es := load16 m (a + 40)
  ds := load16 m (a + 44)
  intNo := load32 m (a + 48)
  errCode := load32 m (a + 52)
  eip := load32 m (a + 56)
  cs := load16 m (a + 60)
  eflags := load32 m (a + 64)
  userEsp := load32 m (a + 68)
  ss := load16 m (a + 72)

/-- The CPU as a frame describes it. -/
def TrapFrame.resume (f : TrapFrame) (m : Mem) : X86 where
  eax := f.eax
  ecx := f.ecx
  edx := f.edx
  ebx := f.ebx
  esp := f.userEsp
  ebp := f.ebp
  esi := f.esi
  edi := f.edi
  ds := f.ds
  es := f.es
  fs := f.fs
  gs := f.gs
  ss := f.ss
  cs := f.cs
  eip := f.eip
  eflags := f.eflags
  mem := m

/-! ## What is right about a frame -/

/-- The state at the call of `isr_handler`; `esp` points to the frame. -/
def trapped (tss : Tss) (pad : Seg → Half) (v : Fin 32) (err : Word) (c : X86) : X86 :=
  X86.trap pad (X86.isrStub (BitVec.ofNat 32 v) (X86.exception tss pad v err c))

/-- The frame describes the exception. -/
structure FrameOk (v : Fin 32) (err : Word) (c : X86) (f : TrapFrame) : Prop where
  intNo : f.intNo = BitVec.ofNat 32 v
  errCode : f.errCode = if X86.pushesErrorCode v then err else 0
  eip : f.eip = c.eip
  cs : f.cs = c.cs
  eflags : f.eflags = c.eflags

/-- `isr_handler` has returned: the frame is unchanged, the general registers are not. -/
structure Handled (c d : X86) : Prop where
  esp : d.esp = c.esp
  cs : d.cs = c.cs
  ss : d.ss = c.ss
  frame : ∀ x, (x - c.esp).toNat < trapFrameSize → d.mem x = c.mem x

/-- The interrupted code goes on with all its registers. -/
def Resumed (c d : X86) : Prop := d = { c with mem := d.mem }

/-- The frame of `v` is right, and a handler that leaves it alone is undone. -/
def TrapOk (tss : Tss) (pad : Seg → Half) (v : Fin 32) (err : Word) (c : X86) : Prop :=
  FrameOk v err c (readFrame (trapped tss pad v err c).mem (trapped tss pad v err c).esp) ∧
  ∀ d, Handled (trapped tss pad v err c) d → Resumed c (X86.trapRet d)

namespace X86
variable {c d : X86} {pad : Seg → Half} {tss : Tss} {v : Fin 32} {err : Word} {ws : List Word}

/-! ## The stack -/

theorem pushes_words {l : List Word} (h : WordsAt c.mem c.esp ws) (hlen : l.length + ws.length ≤ 64) :
    WordsAt (l.foldl push c).mem (l.foldl push c).esp (l.reverse ++ ws) := by
  induction l generalizing c ws with
  | nil => exact h
  | cons w l ih =>
    rw [List.length_cons] at hlen
    have hpush : WordsAt (c.push w).mem (c.push w).esp (w :: ws) := h.push (by omega)
    simpa using ih hpush (by rw [List.length_cons]; omega)

/-- What the CPU pushes at the change of privilege. -/
def outerWords (pad : Seg → Half) (c : X86) : List Word :=
  if cpl c.cs = 0 then [] else [c.esp, pad .ss ++ c.ss]

def cpuWords (pad : Seg → Half) (c : X86) : List Word :=
  [c.eip, pad .cs ++ c.cs, c.eflags] ++ outerWords pad c

/-- The frame from `edi` to `ds`; `esp` is what `pusha` pushes for it. -/
def savedWords (pad : Seg → Half) (esp : Addr) (c : X86) : List Word :=
  [c.edi, c.esi, c.ebp, esp, c.ebx, c.edx, c.ecx, c.eax, pad .gs ++ c.gs,
    pad .fs ++ c.fs, pad .es ++ c.es, pad .ds ++ c.ds]

theorem outerWords_length (pad : Seg → Half) (c : X86) : (outerWords pad c).length ≤ 2 := by
  unfold outerWords
  split_ifs <;> simp

theorem exception_words (tss : Tss) (pad : Seg → Half) (v : Fin 32) (err : Word) (c : X86) :
    WordsAt (exception tss pad v err c).mem (exception tss pad v err c).esp
      ((if pushesErrorCode v then [err] else []) ++ cpuWords pad c) := by
  have hlen := outerWords_length pad c
  -- the stack that the entry works on
  generalize hd : (if cpl c.cs = 0 then c
    else (pushSeg pad .ss c.ss { c with esp := tss.esp0, ss := tss.ss0 }).push c.esp) = d
  have houter : WordsAt d.mem d.esp (outerWords pad c) := by
    unfold outerWords
    subst hd
    split_ifs
    · trivial
    · have hempty : WordsAt c.mem tss.esp0 [] := trivial
      exact pushes_words (l := [pad .ss ++ c.ss, c.esp])
        (c := { c with esp := tss.esp0, ss := tss.ss0 }) hempty (by simp)
  simp only [exception, hd]
  cases hv : pushesErrorCode v with
  | false =>
    exact pushes_words (l := [c.eflags, pad .cs ++ c.cs, c.eip]) houter (by simp; omega)
  | true =>
    exact pushes_words (l := [c.eflags, pad .cs ++ c.cs, c.eip, err]) houter (by simp; omega)

theorem trap_words (pad : Seg → Half) (h : WordsAt c.mem c.esp ws) (hlen : ws.length < 32) :
    WordsAt (trap pad c).mem (trap pad c).esp (savedWords pad (c.esp - 4 - 4 - 4 - 4) c ++ ws) := by
  have hpush := pushes_words (l := (savedWords pad (c.esp - 4 - 4 - 4 - 4) c).reverse) h
    (by simp [savedWords]; omega)
  rw [List.reverse_reverse] at hpush
  simp only [savedWords, List.reverse_cons, List.reverse_nil, List.nil_append, List.cons_append,
    List.foldl_cons, List.foldl_nil] at hpush
  simp only [trap, pusha, pushSeg, push_eax, push_ecx, push_edx, push_ebx, push_ebp, push_esi, push_edi]
  exact hpush

/-- The registers that no push and no entry changes; the others are blanked. -/
def kept (c : X86) : X86 := { c with esp := 0, ss := 0, cs := 0, eflags := 0, mem := fun _ => 0 }

theorem kept_push (c : X86) (w : Word) : kept (c.push w) = kept c := rfl

theorem kept_exception (tss : Tss) (pad : Seg → Half) (v : Fin 32) (err : Word) (c : X86) :
    kept (exception tss pad v err c) = kept c := by
  have hflags : ∀ d : X86, kept { d with cs := 0x08, eflags := c.eflags &&& ~~~gateFlags } = kept d :=
    fun _ => rfl
  have hstack : kept { c with esp := tss.esp0, ss := tss.ss0 } = kept c := rfl
  simp only [exception, hflags]
  split_ifs <;> simp only [pushSeg, kept_push, hstack]

theorem savedWords_kept {esp : Addr} (h : kept d = kept c) :
    savedWords pad esp d = savedWords pad esp c := by
  have hkept : ∀ e : X86, savedWords pad esp e = savedWords pad esp (kept e) := fun _ => rfl
  rw [hkept, h, ← hkept]

/-- What a stub and `trap` leave on the stack of an entry. -/
theorem stub_words (pad : Seg → Half) (num : Word) (h : WordsAt d.mem d.esp ws) (hlen : ws.length ≤ 6)
    (hkept : kept d = kept c) :
    ∃ esp, WordsAt (trap pad (isrStub num d)).mem (trap pad (isrStub num d)).esp
      (savedWords pad esp c ++ ([num, 0] ++ ws)) := by
  have hstub : WordsAt (isrStub num d).mem (isrStub num d).esp ([num, 0] ++ ws) :=
    pushes_words (l := [0, num]) h (by simp; omega)
  have hregs : kept (isrStub num d) = kept c := hkept
  have htrap := trap_words pad hstub (by simp; omega)
  rw [savedWords_kept hregs] at htrap
  exact ⟨_, htrap⟩

/-- The stack at the call of `isr_handler`. -/
theorem trapped_words (tss : Tss) (pad : Seg → Half) (v : Fin 32) (err : Word) (c : X86) :
    ∃ esp, WordsAt (trapped tss pad v err c).mem (trapped tss pad v err c).esp
      (savedWords pad esp c ++ ([BitVec.ofNat 32 v, 0] ++
        ((if pushesErrorCode v then [err] else []) ++ cpuWords pad c))) := by
  have hlen : ((if pushesErrorCode v then [err] else []) ++ cpuWords pad c).length ≤ 6 := by
    have houter := outerWords_length pad c
    simp only [cpuWords, List.length_append]
    split_ifs <;> simp <;> omega
  exact stub_words pad _ (exception_words tss pad v err c) hlen (kept_exception tss pad v err c)

theorem trapped_esp (tss : Tss) (pad : Seg → Half) (err : Word) (h0 : cpl c.cs = 0)
    (hv : pushesErrorCode v = false) : (trapped tss pad v err c).esp = c.esp - 68 := by
  have hpush : ∀ (d : X86) (w : Word), (d.push w).esp = d.esp - 4 := fun _ _ => rfl
  simp only [trapped, trap, pusha, pushSeg, isrStub, exception, h0, hv, if_true, Bool.false_eq_true,
    if_false, hpush]
  bv_omega

theorem pad_setWidth (p sel : Half) : (p ++ sel).setWidth 16 = sel := by
  ext i hi
  rw [BitVec.getElem_setWidth, BitVec.getLsbD_append, if_pos hi, BitVec.getLsbD_eq_getElem]

/-! ## The frame the handler sees -/

theorem frame_fields {m : Mem} {a esp : Addr} {n x y z : Word}
    (h : WordsAt m a (savedWords pad esp c ++ ([n, 0] ++ (x :: y :: z :: ws)))) :
    (readFrame m a).intNo = n ∧ (readFrame m a).errCode = 0 ∧ (readFrame m a).eip = x ∧
      (readFrame m a).cs = y.setWidth 16 ∧ (readFrame m a).eflags = z :=
  ⟨h.get (k := 12) rfl, h.get (k := 13) rfl, h.get (k := 14) rfl, h.get16 (k := 15) rfl,
    h.get (k := 16) rfl⟩

/-- Without an error code of the CPU the 0 stands in its place. -/
theorem frame_ok (tss : Tss) (pad : Seg → Half) (err : Word) (c : X86)
    (hv : pushesErrorCode v = false) :
    FrameOk v err c (readFrame (trapped tss pad v err c).mem (trapped tss pad v err c).esp) := by
  obtain ⟨esp, hw⟩ := trapped_words tss pad v err c
  rw [hv] at hw
  obtain ⟨hint, herr, heip, hcs, hflags⟩ := frame_fields hw
  refine ⟨hint, ?_, heip, ?_, hflags⟩
  · rw [herr, hv]
    rfl
  · rw [hcs, pad_setWidth]

/-- With an error code of the CPU everything behind the 0 is one word off. -/
theorem frame_shift (tss : Tss) (pad : Seg → Half) (err : Word) (c : X86)
    (hv : pushesErrorCode v = true) :
    let f := readFrame (trapped tss pad v err c).mem (trapped tss pad v err c).esp
    f.errCode = 0 ∧ f.eip = err ∧ f.cs = c.eip.setWidth 16 ∧ f.eflags = pad .cs ++ c.cs := by
  obtain ⟨esp, hw⟩ := trapped_words tss pad v err c
  rw [hv] at hw
  obtain ⟨-, herr, heip, hcs, hflags⟩ := frame_fields hw
  exact ⟨herr, heip, hcs, hflags⟩

/-! ## The return -/

/-- The pops take back what `trap` pushed. -/
theorem pops_saved {esp : Addr} (h : WordsAt d.mem d.esp (savedWords pad esp c ++ ws)) :
    popSegs (popa d) = { d with
      edi := c.edi, esi := c.esi, ebp := c.ebp, ebx := c.ebx, edx := c.edx, ecx := c.ecx,
      eax := c.eax, gs := c.gs, fs := c.fs, es := c.es, ds := c.ds, esp := d.esp + 32 + 16 } := by
  have hsegs : WordsAt d.mem (d.esp + 32) ([pad .gs ++ c.gs, pad .fs ++ c.fs, pad .es ++ c.es,
      pad .ds ++ c.ds] ++ ws) := h.drop 8
  have hedi : load32 d.mem d.esp = c.edi := h.1
  have hesi : load32 d.mem (d.esp + 4) = c.esi := h.get (k := 1) rfl
  have hebp : load32 d.mem (d.esp + 8) = c.ebp := h.get (k := 2) rfl
  have hebx : load32 d.mem (d.esp + 16) = c.ebx := h.get (k := 4) rfl
  have hedx : load32 d.mem (d.esp + 20) = c.edx := h.get (k := 5) rfl
  have hecx : load32 d.mem (d.esp + 24) = c.ecx := h.get (k := 6) rfl
  have heax : load32 d.mem (d.esp + 28) = c.eax := h.get (k := 7) rfl
  have hgs : load16 d.mem (d.esp + 32) = c.gs := by
    rw [load16_eq, hsegs.1, pad_setWidth]
  have hfs : load16 d.mem (d.esp + 32 + 4) = c.fs :=
    (hsegs.get16 (k := 1) rfl).trans (pad_setWidth ..)
  have hes : load16 d.mem (d.esp + 32 + 8) = c.es :=
    (hsegs.get16 (k := 2) rfl).trans (pad_setWidth ..)
  have hds : load16 d.mem (d.esp + 32 + 12) = c.ds :=
    (hsegs.get16 (k := 3) rfl).trans (pad_setWidth ..)
  simp only [popSegs, popa, hedi, hesi, hebp, hebx, hedx, hecx, heax, hgs, hfs, hes, hds]

theorem iret_words {eip eflags : Word} {p cs : Half}
    (h : WordsAt d.mem d.esp (eip :: (p ++ cs) :: eflags :: ws)) :
    (cpl cs ≤ cpl d.cs → iret d =
      { d with eip := eip, cs := cs, eflags := eflags, esp := d.esp + 12 }) ∧
    (¬cpl cs ≤ cpl d.cs → ∀ (esp : Word) (q ss : Half), ws = [esp, q ++ ss] → iret d =
      { d with eip := eip, cs := cs, eflags := eflags, esp := esp, ss := ss }) := by
  have heip : load32 d.mem d.esp = eip := h.1
  have hcs : load16 d.mem (d.esp + 4) = cs := (h.get16 (k := 1) rfl).trans (pad_setWidth ..)
  have hflags : load32 d.mem (d.esp + 8) = eflags := h.get (k := 2) rfl
  constructor
  · intro hcpl
    simp only [iret, heip, hcs, hflags, if_pos hcpl]
  · rintro hcpl esp q ss rfl
    have hesp : load32 d.mem (d.esp + 12) = esp := h.get (k := 3) rfl
    have hss : load16 d.mem (d.esp + 16) = ss := (h.get16 (k := 4) rfl).trans (pad_setWidth ..)
    simp only [iret, heip, hcs, hflags, if_neg hcpl, hesp, hss]

/-- `trap_ret` at its `iret`. -/
def atIret (c : X86) : X86 := { popSegs (popa c) with esp := c.esp + 32 + 16 + 8 }

theorem trapRet_atIret (c : X86) : trapRet c = iret (atIret c) := rfl

/-- From the kernel to outer code, `trap_ret` loads everything from the frame `esp` points to. -/
theorem trapRet_resume (h : cpl c.cs < cpl (readFrame c.mem c.esp).cs) :
    trapRet c = (readFrame c.mem c.esp).resume c.mem := by
  have hiret : (atIret c).esp = c.esp + 56 := by
    simp only [atIret, BitVec.add_assoc]
    rfl
  have hcs : load16 (atIret c).mem ((atIret c).esp + 4) = (readFrame c.mem c.esp).cs := by
    rw [hiret, BitVec.add_assoc]
    rfl
  have hcpl : ¬cpl (load16 (atIret c).mem ((atIret c).esp + 4)) ≤ cpl (atIret c).cs := by
    rw [hcs]
    exact not_le.mpr h
  rw [trapRet_atIret, iret]
  simp only [if_neg hcpl]
  simp only [atIret, popSegs, popa, TrapFrame.resume, readFrame, BitVec.add_assoc]
  rfl

/-- The stack goes through a handler that leaves the frame alone. -/
theorem handled_words (h : Handled c d) (hw : WordsAt c.mem c.esp ws) (hlen : ws.length ≤ 19) :
    WordsAt d.mem d.esp ws := by
  rw [h.esp]
  refine hw.congr (by omega) fun x hx => h.frame x ?_
  unfold trapFrameSize
  omega

theorem trapped_cs (tss : Tss) (pad : Seg → Half) (v : Fin 32) (err : Word) (c : X86) :
    (trapped tss pad v err c).cs = 0x08 := by
  simp only [trapped, trap, pusha, pushSeg, isrStub, exception, push_cs]

theorem trapped_ss (tss : Tss) (pad : Seg → Half) (v : Fin 32) (err : Word) (h0 : cpl c.cs = 0) :
    (trapped tss pad v err c).ss = c.ss := by
  simp only [trapped, trap, pusha, pushSeg, isrStub, exception, push_ss, h0, if_true]
  split_ifs <;> simp only [push_ss]

theorem resumed (tss : Tss) (pad : Seg → Half) (err : Word) (c : X86)
    (hv : pushesErrorCode v = false) (hd : Handled (trapped tss pad v err c) d) :
    Resumed c (trapRet d) := by
  obtain ⟨esp, hw⟩ := trapped_words tss pad v err c
  have houter := outerWords_length pad c
  rw [hv] at hw
  have hw' := handled_words hd hw (by simp [savedWords, cpuWords]; omega)
  -- what is left behind the pops and the error code
  have hrest : WordsAt d.mem (d.esp + 32 + 16 + 8) (cpuWords pad c) := by
    have hdrop := hw'.drop 14
    rw [BitVec.add_assoc, BitVec.add_assoc]
    exact hdrop
  have hcpl : cpl d.cs = 0 := by
    rw [hd.cs, trapped_cs]
    rfl
  unfold trapRet
  rw [pops_saved hw']
  by_cases h0 : cpl c.cs = 0
  · -- the interrupted stack goes on
    obtain ⟨hiret, -⟩ := iret_words (d := { d with
      edi := c.edi, esi := c.esi, ebp := c.ebp, ebx := c.ebx, edx := c.edx, ecx := c.ecx,
      eax := c.eax, gs := c.gs, fs := c.fs, es := c.es, ds := c.ds, esp := d.esp + 32 + 16 + 8 }) hrest
    rw [hiret (by rw [h0]; omega)]
    have hesp : d.esp + 32 + 16 + 8 + 12 = c.esp := by
      rw [hd.esp, trapped_esp tss pad err h0 hv]
      bv_omega
    have hss : d.ss = c.ss := by rw [hd.ss, trapped_ss tss pad v err h0]
    rw [Resumed]
    simp only [hesp, hss]
  · obtain ⟨-, hiret⟩ := iret_words (d := { d with
      edi := c.edi, esi := c.esi, ebp := c.ebp, ebx := c.ebx, edx := c.edx, ecx := c.ecx,
      eax := c.eax, gs := c.gs, fs := c.fs, es := c.es, ds := c.ds, esp := d.esp + 32 + 16 + 8 }) hrest
    have houter : outerWords pad c = [c.esp, pad .ss ++ c.ss] := if_neg h0
    rw [hiret (by show ¬cpl c.cs ≤ cpl d.cs; omega) c.esp (pad .ss) c.ss houter]
    rfl

/-- **Trap frames.** A vector's frame describes the exception, and a handler that leaves it alone is
undone, exactly for the vectors where the CPU pushes no error code. -/
theorem trapOk_iff (tss : Tss) (pad : Seg → Half) (v : Fin 32) (err : Word) (c : Interrupted) :
    TrapOk tss pad v err c.toX86 ↔ pushesErrorCode v = false := by
  constructor
  · rintro ⟨hok, -⟩
    by_contra hv
    rw [Bool.not_eq_false] at hv
    -- the interrupted `eflags` would be the selector of `cs`, and that 0
    obtain ⟨herr, heip, hcs, hflags⟩ := frame_shift tss pad err c.toX86 hv
    have hbit := c.reserved
    have herr0 : err = 0 := by
      have herr' := hok.errCode
      rw [hv, herr] at herr'
      exact herr'.symm
    have heip0 : c.eip = 0 := by rw [← hok.eip, heip, herr0]
    have hcs0 : c.cs = 0 := by rw [← hok.cs, hcs, heip0]; rfl
    rw [← hok.eflags, hflags, hcs0, BitVec.getLsbD_append] at hbit
    simp at hbit
  · intro hv
    exact ⟨frame_ok tss pad err c.toX86 hv, fun d hd => resumed tss pad err c.toX86 hv hd⟩

/-- Kernel code at `0x80101234` with interrupts on. -/
def kernelCode : Interrupted where
  eax := 1
  ecx := 2
  edx := 3
  ebx := 4
  esp := 0x80105000
  ebp := 0x80105010
  esi := 5
  edi := 6
  ds := 0x10
  es := 0x10
  fs := 0x10
  gs := 0x10
  ss := 0x10
  cs := 0x08
  eip := 0x80101234
  eflags := 0x202
  mem _ := 0
  reserved := by decide

/-- A write to a page that is not present, error code 2: the handler reads 0, the error code stands
for `eip`, and `iret` goes there. -/
theorem pageFault_shift :
    let e := trapped ⟨0, 0⟩ (fun _ => 0) 14 2 kernelCode.toX86
    (readFrame e.mem e.esp).errCode = 0 ∧ (readFrame e.mem e.esp).eip = 2 ∧ (trapRet e).eip = 2 ∧
      ¬TrapOk ⟨0, 0⟩ (fun _ => 0) 14 2 kernelCode.toX86 := by
  have hframe : let e := trapped ⟨0, 0⟩ (fun _ => 0) 14 2 kernelCode.toX86
      (readFrame e.mem e.esp).errCode = 0 ∧ (readFrame e.mem e.esp).eip = 2 ∧
        (trapRet e).eip = 2 := by
    decide +kernel
  refine ⟨hframe.1, hframe.2.1, hframe.2.2, fun hok => ?_⟩
  exact absurd (hframe.1.symm.trans hok.1.errCode) (by decide)

end X86

end TuixOS
