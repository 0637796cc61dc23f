import TuixOS.Gdt

/-!
# Segments are flat

The rest of this development takes the offset of an access for its linear address. So it is: the four
segments that `init_gdt` makes start at 0 and go up to the end of the address space, the other two
entries cannot be loaded, and neither `switch_uvm` nor a load changes that (`Segments`). A process in
user mode can load the two segments of its own and no segment of the kernel. `flat_segments` is the
result.
-/

namespace TuixOS

open Lib

namespace Gdt

/-- The privilege of an entry of `init_gdt`. -/
def privilege (i : Fin maxSegs) : BitVec 2 := if i = usrCi ∨ i = usrDi then 3 else 0

/-- The type of an entry of `init_gdt`, without the accessed bit. -/
def segmentType (i : Fin maxSegs) : BitVec 4 := if i = kerCi ∨ i = usrCi then 0xA else 0x2

/-- The whole address space. -/
structure Flat (i : Fin maxSegs) (d : Descriptor) : Prop where
  base : d.base = 0
  limit : d.limit = 0xFFFFF
  granular : d.granular = true
  segment : d.IsSegment
  dpl : d.dpl = privilege i
  type : d.type = segmentType i ∨ d.type = segmentType i ||| 1

/-- Neither code nor data. -/
def Unloadable (i : Fin maxSegs) : Prop := i = nullI ∨ i = tssI

structure Segments (s : Machine) : Prop where
  flat : ∀ i, ¬Unloadable i → Flat i (s.gdt i).descriptor
  system : ∀ i, Unloadable i → ¬(s.gdt i).descriptor.IsSegment

theorem entry_cases {i : Fin maxSegs} (hi : ¬Unloadable i) :
    i = kerCi ∨ i = kerDi ∨ i = usrCi ∨ i = usrDi := by
  obtain ⟨hnull, htss⟩ := not_or.mp hi
  have hlt : i.val < 6 := i.isLt
  have hne0 : i.val ≠ 0 := Fin.val_ne_of_ne hnull
  have hne5 : i.val ≠ 5 := Fin.val_ne_of_ne htss
  simp only [Fin.ext_iff, kerCi, kerDi, usrCi, usrDi]
  omega

/-! ## What a flat descriptor lets pass -/

section Flat
variable {i : Fin maxSegs} {d : Descriptor}

theorem Flat.byteLimit (h : Flat i d) : d.byteLimit = 2 ^ 32 - 1 := by
  rw [Descriptor.byteLimit, if_pos h.granular, h.limit]
  rfl

/-- The bits of the type but the accessed bit. -/
theorem Flat.type_bits (h : Flat i d) :
    (d.IsCode ↔ i = kerCi ∨ i = usrCi) ∧ d.type.getLsbD 1 = true ∧ d.type.getLsbD 2 = false := by
  have htype := h.type
  unfold segmentType at htype
  split_ifs at htype with hcode
  all_goals
    simp only [Descriptor.IsCode, hcode]
    rcases htype with htype | htype
    all_goals
      rw [htype]
      decide

theorem Flat.contains (h : Flat i d) (offset : Word) : d.Contains offset := by
  have hdown : ¬(¬d.IsCode ∧ d.type.getLsbD 2 = true) := by
    rw [h.type_bits.2.2]
    simp
  rw [Descriptor.Contains, if_neg hdown, h.byteLimit]
  have := offset.isLt
  omega

theorem Flat.not_conforming (h : Flat i d) : ¬d.Conforming := by
  rintro ⟨-, hbit⟩
  rw [h.type_bits.2.2] at hbit
  cases hbit

theorem privilege_user (i : Fin maxSegs) : privilege i = 3 ↔ i = usrCi ∨ i = usrDi := by
  unfold privilege
  split_ifs with hi
  · exact iff_of_true rfl hi
  · exact iff_of_false (by decide) hi

theorem Flat.loadsData (h : Flat i d) (rpl : BitVec 2) : d.LoadsData 3 rpl ↔ i = usrCi ∨ i = usrDi := by
  have hall : ∀ x : BitVec 2, 3 ≤ x ↔ x = 3 := by decide
  have hle : ∀ x : BitVec 2, x ≤ 3 := by decide
  rw [← privilege_user i, ← h.dpl, ← hall]
  constructor
  · rintro ⟨-, -, hconf | ⟨hcpl, -⟩⟩
    · exact absurd hconf h.not_conforming
    · exact hcpl
  · intro hcpl
    refine ⟨h.segment, fun _ => h.type_bits.2.1, Or.inr ⟨hcpl, ?_⟩⟩
    rw [(hall _).mp hcpl]
    exact hle rpl

theorem Flat.loadsStack (h : Flat i d) (rpl : BitVec 2) : d.LoadsStack 3 rpl ↔ rpl = 3 ∧ i = usrDi := by
  constructor
  · rintro ⟨-, ⟨hdata, -⟩, hrpl, hdpl⟩
    rw [h.type_bits.1] at hdata
    rw [h.dpl, privilege_user] at hdpl
    exact ⟨hrpl, hdpl.resolve_left fun hi => hdata (Or.inr hi)⟩
  · rintro ⟨hrpl, hi⟩
    refine ⟨h.segment, ⟨?_, h.type_bits.2.1⟩, hrpl, ?_⟩
    · rw [h.type_bits.1, hi]
      decide
    · rw [h.dpl, privilege_user]
      exact Or.inr hi

theorem Flat.returnsTo (h : Flat i d) : d.ReturnsTo 3 ↔ i = usrCi := by
  constructor
  · rintro ⟨-, hcode, hdpl | ⟨hconf, -⟩⟩
    · rw [h.type_bits.1] at hcode
      rw [h.dpl, privilege_user] at hdpl
      rcases hdpl with hi | hi
      · exact hi
      · rw [hi] at hcode
        exact absurd hcode (by decide)
    · exact absurd hconf h.not_conforming
  · intro hi
    refine ⟨h.segment, h.type_bits.1.mpr (Or.inr hi), Or.inl ?_⟩
    rw [h.dpl, privilege_user]
    exact Or.inl hi

end Flat

/-! ## The invariant -/

section Steps
variable {cpu : Addr} {s s' : Machine} {i : Fin maxSegs} {sel : Half}

theorem Segments.mark (h : Segments s) : Segments (s.setEntry i ((s.gdt i).mark 1)) := by
  have hsegment : ((s.gdt i).mark 1).descriptor.IsSegment ↔ (s.gdt i).descriptor.IsSegment := by
    rw [GdtEntry.mark_descriptor 1 _ rfl]
    exact Iff.rfl
  refine ⟨fun j hj => ?_, fun j hj => ?_⟩
  · by_cases hji : j = i
    · subst hji
      have hflat := h.flat j hj
      rw [Machine.setEntry_self]
      refine ⟨?_, ?_, ?_, hsegment.mpr hflat.segment, ?_, ?_⟩
      all_goals rw [GdtEntry.mark_descriptor 1 _ rfl]
      · exact hflat.base
      · exact hflat.limit
      · exact hflat.granular
      · exact hflat.dpl
      · have hbit : (1 : Byte).extractLsb' 0 4 = 1 := by decide
        refine Or.inr ?_
        rw [hbit]
        rcases hflat.type with htype | htype
        · rw [htype]
        · rw [htype, BitVec.or_assoc, BitVec.or_self]
    · rw [Machine.setEntry_of_ne hji]
      exact h.flat j hj
  · by_cases hji : j = i
    · subst hji
      rw [Machine.setEntry_self, hsegment]
      exact h.system j hj
    · rw [Machine.setEntry_of_ne hji]
      exact h.system j hj

theorem Segments.loadSeg (h : Segments s) (hload : s.loadSeg cpu sel = .ok s') : Segments s' := by
  obtain rfl | ⟨j, -, rfl⟩ := Machine.loadSeg_cases hload
  · exact h
  · exact h.mark

theorem Segments.switched (h : Segments s) (p : ProcStack) : Segments (switched cpu p s) where
  flat i hi := by
    rw [switched_of_ne fun he => hi (Or.inr he)]
    exact h.flat i hi
  system i hi := by
    by_cases htss : i = tssI
    · subst htss
      rintro ⟨-, hdata⟩
      obtain ⟨-, hsystem, -⟩ := switched_busy cpu p s
      rw [hdata] at hsystem
      cases hsystem
    · rw [switched_of_ne htss]
      exact h.system i hi

/-- The entry of the task state segment is 0 until the first `switch_uvm`. -/
theorem segments_initGdt {m : Machine} (htss : m.gdt tssI = ⟨0, 0, 0, 0, 0, 0⟩)
    (h : initGdt cpu m = .ok s) : Segments s := by
  simp only [initGdt] at h
  generalize ht : ({ (((((m.setEntry nullI _).setEntry kerCi _).setEntry kerDi _).setEntry usrCi _).setEntry
    usrDi _) with gdtrLimit := _, gdtrBase := _ } : Machine) = t at h
  have hsegments : Segments t := by
    subst ht
    refine ⟨fun i hi => ?_, fun i hi => ?_⟩
    · rcases entry_cases hi with rfl | rfl | rfl | rfl
      · show Flat kerCi (GdtEntry.mk 0xFFFF 0x0000 0x00 0x9A 0xCF 0x00).descriptor
        constructor <;> decide
      · show Flat kerDi (GdtEntry.mk 0xFFFF 0x0000 0x00 0x92 0xCF 0x00).descriptor
        constructor <;> decide
      · show Flat usrCi (GdtEntry.mk 0xFFFF 0x0000 0x00 0xFA 0xCF 0x00).descriptor
        constructor <;> decide
      · show Flat usrDi (GdtEntry.mk 0xFFFF 0x0000 0x00 0xF2 0xCF 0x00).descriptor
        constructor <;> decide
    · rcases hi with rfl | rfl
      · show ¬(GdtEntry.mk 0 0 0 0 0 0).descriptor.IsSegment
        decide
      · show ¬(m.gdt tssI).descriptor.IsSegment
        rw [htss]
        decide
  obtain ⟨s₁, h₁, h⟩ := bind_eq_ok.mp h
  obtain ⟨s₂, h₂, h⟩ := bind_eq_ok.mp h
  obtain ⟨s₃, h₃, h⟩ := bind_eq_ok.mp h
  obtain ⟨s₄, h₄, h⟩ := bind_eq_ok.mp h
  obtain ⟨s₅, h₅, h⟩ := bind_eq_ok.mp h
  exact (((((hsegments.loadSeg h₁).loadSeg h₂).loadSeg h₃).loadSeg h₄).loadSeg h₅).loadSeg h

theorem segments_step {e : Event} (ht : s.Tables cpu) (h : Segments s) (hstep : Step cpu s e s') :
    Segments s' := by
  cases e with
  | switchUvm p =>
    obtain ⟨q, -, -, -, rfl⟩ := switchUvm_cases ht hstep
    exact h.switched q
  | loadSeg sel => exact h.loadSeg hstep

theorem segments_run {s₀ : Machine} {as : List Event} (ht : s₀.Tables cpu) (h₀ : Segments s₀)
    (hrun : Run (Step cpu) s₀ as s) : Segments s :=
  (hrun.invariant (I := fun as s => Kept cpu s₀ as s ∧ Segments s) ⟨kept_run ht .nil, h₀⟩
    fun _ _ _ _ h hstep => ⟨kept_step h.1 hstep, segments_step h.1.toTables h.2 hstep⟩).2

end Steps

theorem loadSeg_selected {cpu : Addr} {s s' : Machine} {sel : Half} (h : s.loadSeg cpu sel = .ok s') :
    sel.toNat / 4 = 0 ∨ ∃ i, s.selected cpu sel = some i ∧ (s.gdt i).descriptor.IsSegment := by
  simp only [Machine.loadSeg] at h
  split_ifs at h with hnull
  · exact Or.inl hnull
  · split at h
    · next i hsel =>
      split_ifs at h with hseg
      exact Or.inr ⟨i, hsel, hseg⟩
    · cases h

/-- **Segments are flat.** After `init_gdt` and any switches and loads of segments, a load that is no
exception is of a null selector or of a segment of `init_gdt`, with base 0 and every offset in it; in
user mode the loads of data succeed for the two user segments alone, those of a stack for the user's
data, and a return to user mode for the user's code. -/
theorem flat_segments (cpu : Addr) (m : Machine) (htss : m.gdt tssI = ⟨0, 0, 0, 0, 0, 0⟩) :
    ∃ s₀, initGdt cpu m = .ok s₀ ∧ ∀ (as : List Event) (s : Machine), Run (Step cpu) s₀ as s →
      (∀ sel s', s.loadSeg cpu sel = .ok s' → sel.toNat / 4 = 0 ∨
        ∃ i, s.selected cpu sel = some i ∧ ¬Unloadable i ∧ (s.gdt i).descriptor.base = 0 ∧
          ∀ offset, (s.gdt i).descriptor.Contains offset) ∧
      ∀ i rpl, ((s.gdt i).descriptor.LoadsData 3 rpl ↔ i = usrCi ∨ i = usrDi) ∧
        ((s.gdt i).descriptor.LoadsStack 3 rpl ↔ rpl = 3 ∧ i = usrDi) ∧
        ((s.gdt i).descriptor.ReturnsTo 3 ↔ i = usrCi) := by
  obtain ⟨s₀, hinit, ht⟩ := initGdt_ok cpu m
  refine ⟨s₀, hinit, fun as s hrun => ?_⟩
  have hs := segments_run ht (segments_initGdt htss hinit) hrun
  refine ⟨fun sel s' hload => ?_, fun i rpl => ?_⟩
  · rcases loadSeg_selected hload with hnull | ⟨i, hsel, hseg⟩
    · exact Or.inl hnull
    · have hi : ¬Unloadable i := fun hi => hs.system i hi hseg
      exact Or.inr ⟨i, hsel, hi, (hs.flat i hi).base, (hs.flat i hi).contains⟩
  · by_cases hi : Unloadable i
    · have hnot := hs.system i hi
      obtain ⟨hcode, hdata⟩ : i ≠ usrCi ∧ i ≠ usrDi := by
        rcases hi with rfl | rfl <;> decide
      exact ⟨iff_of_false (fun h => hnot h.1) (not_or.mpr ⟨hcode, hdata⟩),
        iff_of_false (fun h => hnot h.1) fun h => hdata h.2, iff_of_false (fun h => hnot h.1) hcode⟩
    · have hflat := hs.flat i hi
      exact ⟨hflat.loadsData rpl, hflat.loadsStack rpl, hflat.returnsTo⟩

/-- A machine with cleared memory, in which user mode loads its data segment and not the kernel's. -/
theorem flat_segments_cleared :
    let m : Machine := ⟨fun _ => ⟨0, 0, 0, 0, 0, 0⟩, ⟨⟨0, 0⟩, 0⟩, 0, 0, 0, 0⟩
    ∃ s₀, initGdt 0x80105000 m = .ok s₀ ∧ (s₀.gdt usrDi).descriptor.LoadsData 3 3 ∧
      ¬(s₀.gdt kerDi).descriptor.LoadsData 3 3 := by
  intro m
  obtain ⟨s₀, hinit, hall⟩ := flat_segments 0x80105000 m rfl
  obtain ⟨-, hloads⟩ := hall [] s₀ .nil
  refine ⟨s₀, hinit, (hloads usrDi 3).1.mpr (Or.inr rfl), fun h => ?_⟩
  exact absurd ((hloads kerDi 3).1.mp h) (by decide)

end Gdt

end TuixOS
