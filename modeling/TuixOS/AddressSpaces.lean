import TuixOS.UserSpace
import TuixOS.Lib.Run

/-!
# Many address spaces from one allocator

Any number of directories are made by `setup_kvm` and filled by `init_uvm` and `map_pages`, in any
order and with any arguments. `Owns m d p` says which pages a directory is made of: itself and its
tables. `Separate` is the joint invariant of allocator and directories: no page has two owners and
no owned page is free. Since `walk_pgdir` and `map_pages` write only pages their directory owns or
takes from the free list, a call leaves every other directory as it is.
-/

namespace TuixOS

open Lib

/-! ## `map_pages` with any arguments -/

section MapPages
variable {pgdir last : Addr} {perm : Word} {s s' : Kmem} {l : List Addr}

/-- A round that the loop has come through: no page for the missing table, or a page mapped. -/
theorem mapPagesLoop_cases {fuel : Nat} {start : Addr} {pa : Word} {r : Int} (hl : FreeList s l)
    (hd : DirOk s.mem pgdir l)
    (hrun : mapPagesLoop pgdir last perm (fuel + 1) start pa s = .ok (r, s')) :
    r = -1 ∧ s' = s ∨ ∃ s₁ l₁, Extends pgdir s l s₁ l₁ ∧
      start.toNat / 2 ^ 22 ∈ dirs s₁.mem pgdir ∧
      (start = last ∧ s' = s₁ ∨ start ≠ last ∧
        mapPagesLoop pgdir last perm fuel (start + pgSize) (pa + pgSize) s₁ = .ok (r, s')) := by
  by_cases hroom : Present s.mem pgdir start ∨ l ≠ []
  · by_cases hfree : pteOf s.mem pgdir start &&& pteP = 0
    · obtain ⟨s₁, l₁, hloop, hext, -, hdirs⟩ :=
        mapPagesLoop_step hl hd hroom hfree last pa perm fuel
      rw [hloop] at hrun
      refine Or.inr ⟨s₁, l₁, hext, hdirs ▸ Finset.mem_insert_self _ _, ?_⟩
      split_ifs at hrun with heq
      · cases hrun
        exact Or.inl ⟨heq, rfl⟩
      · exact Or.inr ⟨heq, hrun⟩
    · rw [mapPagesLoop_mapped hd hfree last] at hrun
      cases hrun
  · obtain ⟨habs, hnil⟩ := not_or.mp hroom
    have hnil := not_not.mp hnil
    subst hnil
    rw [mapPagesLoop_null hl habs] at hrun
    cases hrun
    exact Or.inl ⟨rfl, rfl⟩

/-- Whatever it returns, the loop has extended the directory. -/
theorem mapPagesLoop_extends : ∀ {fuel : Nat} {start : Addr} {pa : Word} {s : Kmem}
    {l : List Addr} {r : Int}, FreeList s l → DirOk s.mem pgdir l →
    mapPagesLoop pgdir last perm fuel start pa s = .ok (r, s') →
    ∃ l', Extends pgdir s l s' l' := by
  intro fuel
  induction fuel with
  | zero =>
    intro start pa s l r _ _ hrun
    cases hrun
  | succ fuel ih =>
    intro start pa s l r hl hd hrun
    rcases mapPagesLoop_cases hl hd hrun with
      ⟨-, rfl⟩ | ⟨s₁, l₁, hext, -, ⟨-, rfl⟩ | ⟨-, hrest⟩⟩
    · exact ⟨l, Extends.refl hl hd⟩
    · exact ⟨l₁, hext⟩
    · obtain ⟨l', hext'⟩ := ih hext.free hext.dir hrest
      exact ⟨l', hext.trans hext'⟩

theorem mapPages_extends {va : Addr} {size pa : Word} {r : Int} (hl : FreeList s l)
    (hd : DirOk s.mem pgdir l) (hrun : mapPages pgdir va size pa perm s = .ok (r, s')) :
    ∃ l', Extends pgdir s l s' l' :=
  mapPagesLoop_extends hl hd hrun

theorem setupKvmLoop_extends : ∀ {ks : List Kmap} {s : Kmem} {l : List Addr}, FreeList s l →
    DirOk s.mem pgdir l → setupKvmLoop pgdir ks s = .ok s' → ∃ l', Extends pgdir s l s' l' := by
  intro ks
  induction ks with
  | nil =>
    intro s l hl hd hrun
    cases hrun
    exact ⟨l, Extends.refl hl hd⟩
  | cons k ks ih =>
    intro s l hl hd hrun
    rw [setupKvmLoop] at hrun
    obtain ⟨⟨r, s₁⟩, hmap, hrun⟩ := bind_eq_ok.mp hrun
    obtain ⟨l₁, hext⟩ := mapPages_extends hl hd hmap
    simp only at hrun
    split_ifs at hrun
    · cases hrun
    · obtain ⟨l', hext'⟩ := ih hext.free hext.dir hrun
      exact ⟨l', hext.trans hext'⟩

end MapPages

/-! ## Ownership -/

/-- The pages the directory `d` is made of. -/
def Owns (m : Mem) (d p : Addr) : Prop := p = d ∨ ∃ va, Present m d va ∧ tabOf m d va = p

/-- The memory of the directory `d` is the same in `m'`. -/
def SameDir (m m' : Mem) (d : Addr) : Prop := ∀ x, Owns m d (pgRoundDown x) → m' x = m x

theorem SameOutside.sameDir {m m' : Mem} {d p : Addr} (h : SameOutside p m m')
    (hp : ¬Owns m d p) : SameDir m m' d := by
  intro x hx
  apply h
  rintro rfl
  exact hp hx

namespace SameDir
variable {m m' m'' : Mem} {d : Addr}

theorem pdeOf (h : SameDir m m' d) (hd : PageAligned d) (va : Addr) :
    pdeOf m' d va = TuixOS.pdeOf m d va := by
  apply load32_page (slot_aligned hd (pdx_lt va))
  intro x hx
  apply h
  rw [hx, slot_page hd (pdx_lt va)]
  exact Or.inl rfl

theorem entry (h : SameDir m m' d) {va : Addr} (hp : Present m d va) {i : Word}
    (hi : i.toNat < 1024) : entry m' (tabOf m d va) i = TuixOS.entry m (tabOf m d va) i := by
  apply load32_page (slot_aligned (pageAligned_tabOf m d va) hi)
  intro x hx
  apply h
  rw [hx, slot_page (pageAligned_tabOf m d va) hi]
  exact Or.inr ⟨va, hp, rfl⟩

theorem owns_iff (h : SameDir m m' d) (hd : PageAligned d) (p : Addr) :
    Owns m' d p ↔ Owns m d p := by
  have hpde := h.pdeOf hd
  simp only [Owns, present_congr (hpde _), tabOf_congr (hpde _)]

theorem trans (h : SameDir m m' d) (h' : SameDir m' m'' d) (hd : PageAligned d) :
    SameDir m m'' d := by
  intro x hx
  rw [h' x ((h.owns_iff hd _).mpr hx), h x hx]

theorem translate (h : SameDir m m' d) (hd : PageAligned d) (va : Addr) :
    translate m' d va = TuixOS.translate m d va := by
  have hpde : load32 m' (d + 4 * pdx va) = load32 m (d + 4 * pdx va) := h.pdeOf hd va
  unfold TuixOS.translate
  simp only [hpde]
  by_cases hp : Present m d va
  · have hpte : load32 m' (p2v (pteAddr (load32 m (d + 4 * pdx va))) + 4 * ptx va) =
        load32 m (p2v (pteAddr (load32 m (d + 4 * pdx va))) + 4 * ptx va) := h.entry hp (ptx_lt va)
    rw [hpte]
  · have habs : load32 m (d + 4 * pdx va) &&& pteP = 0 := not_not.mp hp
    rw [if_pos habs, if_pos habs]

end SameDir

/-! ## The invariant -/

/-- The allocator, the directories made so far and the frames taken by `init_uvm`. -/
structure VmState where
  kmem : Kmem
  dirs : List Addr
  frames : List Addr

/-- Directories, their tables, frames and free pages are all different pages. -/
structure Separate (st : VmState) (l : List Addr) : Prop where
  free : FreeList st.kmem l
  dirOk : ∀ d ∈ st.dirs, DirOk st.kmem.mem d l
  dirs_nodup : st.dirs.Nodup
  apart : ∀ d ∈ st.dirs, ∀ d' ∈ st.dirs, d ≠ d' → ∀ p, Owns st.kmem.mem d p →
    ¬Owns st.kmem.mem d' p
  frames_nodup : st.frames.Nodup
  frame : ∀ f ∈ st.frames, PageAligned f ∧ f ≠ 0 ∧ f ∉ l ∧ ∀ d ∈ st.dirs, ¬Owns st.kmem.mem d f

theorem DirOk.owns_not_free {m : Mem} {d p : Addr} {l : List Addr} (h : DirOk m d l)
    (hp : Owns m d p) : p ∉ l := by
  rcases hp with rfl | ⟨va, hva, rfl⟩
  · exact h.not_free
  · exact (h.tab_ne va hva).2.2

/-- A page the directory owns afterwards was its own or free. -/
theorem Extends.owns {d p : Addr} {s s' : Kmem} {l l' : List Addr} (h : Extends d s l s' l')
    (hp : Owns s'.mem d p) : Owns s.mem d p ∨ p ∈ l := by
  rcases hp with rfl | ⟨va, hva, rfl⟩
  · exact Or.inl (Or.inl rfl)
  · rcases h.tab_cases hva with ⟨hold, heq⟩ | hmem
    · exact Or.inl (Or.inr ⟨va, hold, heq.symm⟩)
    · exact Or.inr hmem

/-- Pages of other owners are not written. -/
theorem Extends.sameDir {d d' : Addr} {s s' : Kmem} {l l' : List Addr} (h : Extends d s l s' l')
    (hd' : DirOk s.mem d' l) (hap : ∀ p, Owns s.mem d p → ¬Owns s.mem d' p) :
    SameDir s.mem s'.mem d' := by
  intro x hx
  apply h.frame x
  · intro he
    exact hap _ (Or.inl he) hx
  · exact hd'.owns_not_free hx
  · intro va hva he
    exact hap _ (Or.inr ⟨va, hva, he⟩) hx

/-- What a step on the directory `d` leaves alone. -/
def OthersSame (st st' : VmState) (d : Addr) : Prop :=
  ∀ d' ∈ st.dirs, d' ≠ d → SameDir st.kmem.mem st'.kmem.mem d'

namespace Separate
variable {st : VmState} {l : List Addr} {p d : Addr}

/-- A directory of the state is not changed by writes outside its pages. -/
theorem dirOk_same {m : Mem} {l' : List Addr} (h : Separate st l) (hd : d ∈ st.dirs)
    (hsame : SameDir st.kmem.mem m d) (hsub : l' ⊆ l) : DirOk m d l' :=
  ((h.dirOk d hd).mono hsub).congr (hsame.pdeOf (h.dirOk d hd).aligned)

/-- Writes into a frame. -/
theorem write {m : Mem} (h : Separate st l) (hp : p ∈ st.frames)
    (hm : SameOutside p st.kmem.mem m) :
    Separate { st with kmem := { st.kmem with mem := m } } l ∧
      ∀ d ∈ st.dirs, SameDir st.kmem.mem m d := by
  obtain ⟨-, -, hnot, hown⟩ := h.frame p hp
  have hsame : ∀ d ∈ st.dirs, SameDir st.kmem.mem m d := fun d hd => hm.sameDir (hown d hd)
  have howns : ∀ d ∈ st.dirs, ∀ q, Owns m d q ↔ Owns st.kmem.mem d q := fun d hd =>
    (hsame d hd).owns_iff (h.dirOk d hd).aligned
  refine ⟨⟨h.free.write hm hnot, fun d hd => h.dirOk_same hd (hsame d hd) (List.Subset.refl l),
    h.dirs_nodup, ?_, h.frames_nodup, ?_⟩, hsame⟩
  · intro d hd d' hd' hne q
    rw [howns d hd, howns d' hd']
    exact h.apart d hd d' hd' hne q
  · intro f hf
    obtain ⟨hal, h0, hfree, hown'⟩ := h.frame f hf
    exact ⟨hal, h0, hfree, fun d hd => by rw [howns d hd]; exact hown' d hd⟩

/-- `kalloc` takes the first free page. -/
theorem take (h : Separate st (p :: l)) :
    Separate { st with kmem := { st.kmem with freelist := runNext st.kmem.mem p },
                       frames := p :: st.frames } l where
  free := h.free.tail
  dirOk d hd := (h.dirOk d hd).mono (List.subset_cons_self p l)
  dirs_nodup := h.dirs_nodup
  apart := h.apart
  frames_nodup := List.nodup_cons.mpr
    ⟨fun hp => (h.frame p hp).2.2.1 List.mem_cons_self, h.frames_nodup⟩
  frame f hf := by
    rcases List.mem_cons.mp hf with rfl | hf
    · refine ⟨h.free.aligned f List.mem_cons_self, h.free.ne_zero List.mem_cons_self,
        (List.nodup_cons.mp h.free.nodup).1, fun d hd hown => ?_⟩
      exact (h.dirOk d hd).owns_not_free hown List.mem_cons_self
    · obtain ⟨hal, h0, hfree, hown⟩ := h.frame f hf
      exact ⟨hal, h0, fun hmem => hfree (List.mem_cons_of_mem p hmem), hown⟩

/-- A directory is extended. -/
theorem extend {s' : Kmem} {l' : List Addr} (h : Separate st l) (hd : d ∈ st.dirs)
    (hext : Extends d st.kmem l s' l') :
    Separate { st with kmem := s' } l' ∧ OthersSame st { st with kmem := s' } d := by
  have hsub : l' ⊆ l := hext.suffix.subset
  have hsame : ∀ d' ∈ st.dirs, d' ≠ d → SameDir st.kmem.mem s'.mem d' := fun d' hd' hne =>
    hext.sameDir (h.dirOk d' hd') (h.apart d hd d' hd' hne.symm)
  have howns : ∀ d' ∈ st.dirs, d' ≠ d → ∀ q, Owns s'.mem d' q ↔ Owns st.kmem.mem d' q :=
    fun d' hd' hne => (hsame d' hd' hne).owns_iff (h.dirOk d' hd').aligned
  -- a page of another directory is neither an old page of `d` nor one it took
  have hnew : ∀ d' ∈ st.dirs, d' ≠ d → ∀ q, Owns s'.mem d q → ¬Owns st.kmem.mem d' q := by
    intro d' hd' hne q hq hq'
    rcases hext.owns hq with hold | hfree
    · exact h.apart d hd d' hd' hne.symm q hold hq'
    · exact (h.dirOk d' hd').owns_not_free hq' hfree
  refine ⟨⟨hext.free, fun d' hd' => ?_, h.dirs_nodup, ?_, h.frames_nodup, ?_⟩, hsame⟩
  · by_cases hne : d' = d
    · rw [hne]
      exact hext.dir
    · exact h.dirOk_same hd' (hsame d' hd' hne) hsub
  · intro d₁ hd₁ d₂ hd₂ hne q hq₁ hq₂
    by_cases h1 : d₁ = d
    · subst h1
      exact hnew d₂ hd₂ hne.symm q hq₁ ((howns d₂ hd₂ hne.symm q).mp hq₂)
    · have hold₁ := (howns d₁ hd₁ h1 q).mp hq₁
      by_cases h2 : d₂ = d
      · subst h2
        exact hnew d₁ hd₁ h1 q hq₂ hold₁
      · exact h.apart d₁ hd₁ d₂ hd₂ hne q hold₁ ((howns d₂ hd₂ h2 q).mp hq₂)
  · intro f hf
    obtain ⟨hal, h0, hfree, hown⟩ := h.frame f hf
    refine ⟨hal, h0, fun hmem => hfree (hsub hmem), fun d' hd' hq => ?_⟩
    by_cases hne : d' = d
    · subst hne
      rcases hext.owns hq with hold | hmem
      · exact hown d' hd' hold
      · exact hfree hmem
    · exact hown d' hd' ((howns d' hd' hne f).mp hq)

/-- A cleared frame becomes a directory. -/
theorem newDir {frames : List Addr} (h : Separate st l) (hframes : st.frames = p :: frames)
    (habs : ∀ va, ¬Present st.kmem.mem p va) :
    Separate ⟨st.kmem, p :: st.dirs, frames⟩ l := by
  have hnodup := h.frames_nodup
  rw [hframes] at hnodup
  obtain ⟨hal, -, hfree, hown⟩ := h.frame p (hframes ▸ List.mem_cons_self)
  have honly : ∀ q, Owns st.kmem.mem p q ↔ q = p := fun q =>
    or_iff_left fun ⟨va, hva, _⟩ => habs va hva
  refine ⟨h.free, fun d hd => ?_, ?_, ?_, (List.nodup_cons.mp hnodup).2, fun f hf => ?_⟩
  · rcases List.mem_cons.mp hd with rfl | hd
    · exact dirOk_of_absent hal hfree habs
    · exact h.dirOk d hd
  · exact List.nodup_cons.mpr ⟨fun hd => hown p hd (Or.inl rfl), h.dirs_nodup⟩
  · intro d hd d' hd' hne q hq hq'
    rcases List.mem_cons.mp hd with rfl | hold <;> rcases List.mem_cons.mp hd' with rfl | hold'
    · exact hne rfl
    · exact hown d' hold' ((honly q).mp hq ▸ hq')
    · exact hown d hold ((honly q).mp hq' ▸ hq)
    · exact h.apart d hold d' hold' hne q hq hq'
  · obtain ⟨hal', h0, hfree', hown'⟩ := h.frame f (hframes ▸ List.mem_cons_of_mem p hf)
    refine ⟨hal', h0, hfree', fun d hd hq => ?_⟩
    rcases List.mem_cons.mp hd with rfl | hd
    · exact (List.nodup_cons.mp hnodup).1 ((honly f).mp hq ▸ hf)
    · exact hown' d hd hq

end Separate

/-! ## Runs -/

inductive VmOp
  | setupKvm (kMaps : List Kmap)
  | initUvm (pgdir init : Addr) (size : Word)
  | mapPages (pgdir va : Addr) (size pa perm : Word)

/-- The directory a call works on, if it is given one. -/
def VmOp.dir : VmOp → Option Addr
  | setupKvm _ => none
  | initUvm pgdir _ _ => some pgdir
  | mapPages pgdir _ _ _ _ => some pgdir

/-- A call that returned, on a directory that `setup_kvm` returned. `init_uvm` and `setup_kvm` have
got the page they ask `kalloc` for. -/
inductive VmStep : VmState → VmOp → VmState → Prop
  | setupKvm {st : VmState} {kMaps : List Kmap} {pgdir : Addr} {s : Kmem}
      (hrun : setupKvm kMaps st.kmem = .ok (pgdir, s)) (hnull : pgdir ≠ 0) :
      VmStep st (.setupKvm kMaps) ⟨s, pgdir :: st.dirs, st.frames⟩
  | initUvm {st : VmState} {pgdir init : Addr} {size : Word} {s : Kmem} (hdir : pgdir ∈ st.dirs)
      (hnull : (kalloc st.kmem).1 ≠ 0) (hrun : initUvm pgdir init size st.kmem = .ok s) :
      VmStep st (.initUvm pgdir init size) ⟨s, st.dirs, (kalloc st.kmem).1 :: st.frames⟩
  | mapPages {st : VmState} {pgdir va : Addr} {size pa perm : Word} {r : Int} {s : Kmem}
      (hdir : pgdir ∈ st.dirs) (hrun : mapPages pgdir va size pa perm st.kmem = .ok (r, s)) :
      VmStep st (.mapPages pgdir va size pa perm) ⟨s, st.dirs, st.frames⟩

/-- A step kept the invariant and every directory but its own. -/
def StepOk (st st' : VmState) (dir : Option Addr) : Prop :=
  (∃ l, Separate st' l) ∧
    ∀ d ∈ st.dirs, dir ≠ some d → SameDir st.kmem.mem st'.kmem.mem d

namespace Separate
variable {st : VmState} {l : List Addr}

/-- A page handed out is the first free one. -/
theorem kalloc_page (h : Separate st l) (hnull : (kalloc st.kmem).1 ≠ 0) :
    ∃ p l', l = p :: l' ∧ kalloc st.kmem = (p, { st.kmem with freelist := runNext st.kmem.mem p }) := by
  cases l with
  | nil => exact absurd (h.free.kalloc_zero.mpr rfl) hnull
  | cons p l' => exact ⟨p, l', rfl, h.free.kalloc_cons⟩

theorem mapPages {pgdir va : Addr} {size pa perm : Word} {r : Int} {s : Kmem}
    (h : Separate st l) (hdir : pgdir ∈ st.dirs)
    (hrun : TuixOS.mapPages pgdir va size pa perm st.kmem = .ok (r, s)) :
    ∃ l', Separate { st with kmem := s } l' ∧ OthersSame st { st with kmem := s } pgdir := by
  obtain ⟨l', hext⟩ := mapPages_extends h.free (h.dirOk pgdir hdir) hrun
  exact ⟨l', h.extend hdir hext⟩

/-- `kalloc` and `memset`: a cleared frame. -/
theorem takeCleared {p : Addr} (h : Separate st (p :: l)) :
    Separate ⟨⟨(memset p 0 pgSize st.kmem.mem).2, runNext st.kmem.mem p⟩, st.dirs, p :: st.frames⟩ l ∧
      ∀ d ∈ st.dirs, SameDir st.kmem.mem (memset p 0 pgSize st.kmem.mem).2 d :=
  h.take.write List.mem_cons_self (sameOutside_memset (h.free.aligned p List.mem_cons_self)
    (h.free.ne_zero List.mem_cons_self) 0 st.kmem.mem)

theorem setupKvm {kMaps : List Kmap} {pgdir : Addr} {s : Kmem} (h : Separate st l)
    (hrun : TuixOS.setupKvm kMaps st.kmem = .ok (pgdir, s)) (hnull : pgdir ≠ 0) :
    StepOk st ⟨s, pgdir :: st.dirs, st.frames⟩ none := by
  unfold TuixOS.setupKvm at hrun
  by_cases hnone : (kalloc st.kmem).1 = 0
  · simp only [if_pos hnone] at hrun
    cases hrun
    exact absurd rfl hnull
  · obtain ⟨p, l', rfl, hk⟩ := h.kalloc_page hnone
    have h0 : p ≠ 0 := h.free.ne_zero List.mem_cons_self
    simp only [hk, if_neg h0] at hrun
    obtain ⟨s', hloop, hret⟩ := bind_eq_ok.mp hrun
    cases hret
    obtain ⟨hclear, hsame⟩ := h.takeCleared
    have hdir := hclear.newDir rfl
      (absent_memset (h.free.aligned pgdir List.mem_cons_self) h0)
    obtain ⟨l₂, hext⟩ := setupKvmLoop_extends hdir.free (hdir.dirOk pgdir List.mem_cons_self) hloop
    obtain ⟨hsep, hothers⟩ := hdir.extend List.mem_cons_self hext
    refine ⟨⟨l₂, hsep⟩, fun d hd _ => ?_⟩
    have hne : d ≠ pgdir := by
      rintro rfl
      exact (List.nodup_cons.mp hdir.dirs_nodup).1 hd
    exact (hsame d hd).trans (hothers d (List.mem_cons_of_mem pgdir hd) hne) (h.dirOk d hd).aligned

theorem initUvm {pgdir init : Addr} {size : Word} {s : Kmem} (h : Separate st l)
    (hdir : pgdir ∈ st.dirs) (hnull : (kalloc st.kmem).1 ≠ 0)
    (hrun : TuixOS.initUvm pgdir init size st.kmem = .ok s) :
    StepOk st ⟨s, st.dirs, (kalloc st.kmem).1 :: st.frames⟩ (some pgdir) := by
  obtain ⟨p, l', rfl, hk⟩ := h.kalloc_page hnull
  have hal : PageAligned p := h.free.aligned p List.mem_cons_self
  rw [hk]
  unfold TuixOS.initUvm at hrun
  split_ifs at hrun with hsize
  simp only [hk] at hrun
  obtain ⟨⟨r, s₁⟩, hmap, hret⟩ := bind_eq_ok.mp hrun
  cases hret
  obtain ⟨hclear, hsame⟩ := h.takeCleared
  obtain ⟨l₁, hmapped, hothers⟩ := hclear.mapPages hdir hmap
  have hcopy := sameOutside_memmove hal init (BitVec.not_lt.mp hsize) s₁.mem
  obtain ⟨hsep, hsame'⟩ := hmapped.write List.mem_cons_self hcopy
  refine ⟨⟨l₁, hsep⟩, fun d hd hne => ?_⟩
  have hne' : d ≠ pgdir := fun he => hne (congrArg some he.symm)
  have hald := (h.dirOk d hd).aligned
  exact ((hsame d hd).trans (hothers d hd hne') hald).trans (hsame' d hd) hald

theorem step {op : VmOp} {st' : VmState} (h : Separate st l) (hstep : VmStep st op st') :
    StepOk st st' op.dir := by
  cases hstep with
  | setupKvm hrun hnull => exact h.setupKvm hrun hnull
  | initUvm hdir hnull hrun => exact h.initUvm hdir hnull hrun
  | mapPages hdir hrun =>
    obtain ⟨l', hsep, hothers⟩ := h.mapPages hdir hrun
    exact ⟨⟨l', hsep⟩, fun d hd hne => hothers d hd fun he => hne (congrArg some he.symm)⟩

end Separate

/-! ## Separation -/

/-- The tables of a directory. -/
def tables (m : Mem) (d : Addr) : List Addr :=
  ((List.range 1024).filter fun i => Present m d (BitVec.ofNat 32 (i * 2 ^ 22))).map fun i =>
    tabOf m d (BitVec.ofNat 32 (i * 2 ^ 22))

theorem mem_tables {m : Mem} {d p : Addr} (h : p ∈ tables m d) :
    ∃ va, Present m d va ∧ tabOf m d va = p := by
  obtain ⟨i, hi, rfl⟩ := List.mem_map.mp h
  exact ⟨_, of_decide_eq_true (List.mem_filter.mp hi).2, rfl⟩

theorem DirOk.tables_nodup {m : Mem} {d : Addr} {l : List Addr} (h : DirOk m d l) :
    (tables m d).Nodup := by
  refine (List.nodup_range.filter _).map_on fun i hi j hj heq => ?_
  obtain ⟨hi, hpi⟩ := List.mem_filter.mp hi
  obtain ⟨hj, hpj⟩ := List.mem_filter.mp hj
  have hidx := h.tab_inj _ _ (of_decide_eq_true hpi) (of_decide_eq_true hpj) heq
  rw [pdx_eq_iff, BitVec.toNat_ofNat, BitVec.toNat_ofNat] at hidx
  rw [List.mem_range] at hi hj
  omega

/-- All pages in use: directories, tables and frames. -/
def VmState.pages (st : VmState) : List Addr :=
  st.dirs ++ st.dirs.flatMap (tables st.kmem.mem) ++ st.frames

theorem Separate.nodup {st : VmState} {l : List Addr} (h : Separate st l) :
    (st.pages ++ l).Nodup := by
  have htabs : (st.dirs.flatMap (tables st.kmem.mem)).Nodup := by
    refine List.nodup_flatMap.mpr ⟨fun d hd => (h.dirOk d hd).tables_nodup, ?_⟩
    refine h.dirs_nodup.imp_of_mem fun {d d'} hd hd' hne p hp hp' => ?_
    exact h.apart d hd d' hd' hne p (Or.inr (mem_tables hp)) (Or.inr (mem_tables hp'))
  -- every page in use has an owner, which is a directory or `init_uvm`
  have htab : ∀ p ∈ st.dirs.flatMap (tables st.kmem.mem), ∃ d ∈ st.dirs, Owns st.kmem.mem d p ∧
      ∃ va, Present st.kmem.mem d va ∧ tabOf st.kmem.mem d va = p := by
    intro p hp
    obtain ⟨d, hd, hp⟩ := List.mem_flatMap.mp hp
    exact ⟨d, hd, Or.inr (mem_tables hp), mem_tables hp⟩
  have howned : ∀ p ∈ st.dirs ++ st.dirs.flatMap (tables st.kmem.mem),
      ∃ d ∈ st.dirs, Owns st.kmem.mem d p := by
    intro p hp
    rcases List.mem_append.mp hp with hd | hp
    · exact ⟨p, hd, Or.inl rfl⟩
    · obtain ⟨d, hd, hown, -⟩ := htab p hp
      exact ⟨d, hd, hown⟩
  refine List.nodup_append.mpr ⟨List.nodup_append.mpr ⟨List.nodup_append.mpr
    ⟨h.dirs_nodup, htabs, ?_⟩, h.frames_nodup, ?_⟩, h.free.nodup, ?_⟩
  · rintro d hd p hp rfl
    obtain ⟨d', hd', hown, va, hva, he⟩ := htab d hp
    by_cases hne : d' = d
    · subst hne
      exact ((h.dirOk d' hd').tab_ne va hva).2.1 he
    · exact h.apart d' hd' d hd hne d hown (Or.inl rfl)
  · rintro p hp f hf rfl
    obtain ⟨d, hd, hown⟩ := howned p hp
    exact (h.frame p hf).2.2.2 d hd hown
  · rintro p hp q hq rfl
    rcases List.mem_append.mp hp with hp | hf
    · obtain ⟨d, hd, hown⟩ := howned p hp
      exact (h.dirOk d hd).owns_not_free hown hq
    · exact (h.frame p hf).2.2.1 hq

/-- **Separation of address spaces.** However `setup_kvm`, `init_uvm` and `map_pages` are called,
directories, page tables, frames and free pages stay different pages, and a call changes no
translation of a directory it does not work on. -/
theorem address_spaces_separate {s : Kmem} {l₀ : List Addr} (hl : FreeList s l₀)
    {ops : List VmOp} {st : VmState} (hrun : Run VmStep ⟨s, [], []⟩ ops st) :
    (∃ l, FreeList st.kmem l ∧ (st.pages ++ l).Nodup) ∧
      ∀ op st', VmStep st op st' → ∀ d ∈ st.dirs, op.dir ≠ some d → ∀ va,
        translate st'.kmem.mem d va = translate st.kmem.mem d va := by
  have hinit : Separate ⟨s, [], []⟩ l₀ :=
    ⟨hl, by simp, List.nodup_nil, by simp, List.nodup_nil, by simp⟩
  obtain ⟨l, hsep⟩ := hrun.state_invariant (I := fun st => ∃ l, Separate st l) ⟨l₀, hinit⟩
    fun _ _ _ h hstep => (h.choose_spec.step hstep).1
  refine ⟨⟨l, hsep.free, hsep.nodup⟩, fun op st' hstep d hd hne va => ?_⟩
  exact ((hsep.step hstep).2 d hd hne).translate (hsep.dirOk d hd).aligned va

theorem address_spaces_separate_two : ∃ ops st, ops.length = 3 ∧ st.dirs.length = 2 ∧
    st.frames.length = 1 ∧ Run VmStep ⟨someFree 140, [], []⟩ ops st ∧
    (∃ l, FreeList st.kmem l ∧ (st.pages ++ l).Nodup) ∧
      ∀ op st', VmStep st op st' → ∀ d ∈ st.dirs, op.dir ≠ some d → ∀ va,
        translate st'.kmem.mem d va = translate st.kmem.mem d va := by
  have hlen : (somePages 140).length = 140 := by simp [somePages]
  obtain ⟨d₁, s₁, s₂, f, hsetup, hfree₁, hinit, hfree₂, -⟩ := initUvm_isolated
    (show PageAligned 0x80110000 by decide) (by decide) (by decide) (someFree_ok 140 (by decide))
    (by rw [hlen]; decide) (codeImage_text (by decide))
  obtain ⟨d₂, s₃, hsetup', hnull', -⟩ := setupKvm_layout (show PageAligned 0x80110000 by decide)
    (by decide) (by decide) hfree₂ (by rw [List.length_drop, hlen]; decide)
  have hf : (kalloc s₁).1 ≠ 0 := by
    rw [hfree₁.kalloc_cons]
    exact hfree₁.ne_zero List.mem_cons_self
  have hd₁ : d₁ ≠ 0 := by
    obtain ⟨d, s, hsetup'', hnull, -⟩ := setupKvm_layout (show PageAligned 0x80110000 by decide)
      (by decide) (by decide) (someFree_ok 140 (by decide)) (by rw [hlen]; decide)
    rw [hsetup] at hsetup''
    cases hsetup''
    exact hnull
  have hfirst : VmStep ⟨someFree 140, [], []⟩ _ _ := .setupKvm hsetup hd₁
  have hrun := ((Run.single hfirst).snoc
    (.initUvm List.mem_cons_self hf hinit)).snoc (.setupKvm hsetup' hnull')
  exact ⟨_, _, rfl, rfl, rfl, hrun, address_spaces_separate (someFree_ok 140 (by decide)) hrun⟩

end TuixOS
