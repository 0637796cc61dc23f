import TuixOS.InitUser
import TuixOS.MapRange

/-!
# Mappings are permanent

The kernel reloads `cr3` and never invalidates a single translation. That is enough, since no call of
`setup_kvm`, `init_uvm` or `map_pages` takes back or changes a translation that a directory has, with
whatever arguments: `map_pages` writes entries that are not present, and `walk_pgdir` adds tables
where there are none (`Keeps`). `mappings_permanent` is the result for whole runs, in which `map_pages`
may fail and the other two find the pages that they ask `kalloc` for.
-/

namespace TuixOS

open Lib

/-- Every translation of the directory is still there. -/
def Keeps (d : Addr) (m m' : Mem) : Prop := ∀ va t, translate m d va = some t → translate m' d va = some t

namespace Keeps
variable {d : Addr} {m m' m'' : Mem}

theorem refl (d : Addr) (m : Mem) : Keeps d m m := fun _ _ ht => ht

theorem trans (h : Keeps d m m') (h' : Keeps d m' m'') : Keeps d m m'' := fun va t ht => h' va t (h va t ht)

theorem of_sameDir (h : SameDir m m' d) (hd : PageAligned d) : Keeps d m m' := by
  intro va t ht
  rwa [h.translate hd]

/-- A page of 4 MiB has no entry of its own. -/
theorem translate_big {va : Addr} (hp : Present m d va) (hbig : pdeOf m d va &&& ptePS ≠ 0) :
    translate m d va = some ⟨(pdeOf m d va &&& 0xFFC00000#32) ||| (va &&& 0x003FFFFF#32),
      pdeOf m d va &&& pteW ≠ 0, pdeOf m d va &&& pteU ≠ 0⟩ :=
  (if_neg hp).trans (if_pos hbig)

/-- Where neither level overwrites an entry that is present. -/
theorem of_entries (hpde : ∀ va, Present m d va → pdeOf m' d va = pdeOf m d va)
    (hpte : ∀ va, pteOf m d va &&& pteP ≠ 0 → pteOf m' d va = pteOf m d va) : Keeps d m m' := by
  intro va t ht
  have hp : Present m d va := by
    by_contra habs
    rw [translate_absent habs] at ht
    cases ht
  have hpde := hpde va hp
  by_cases hbig : pdeOf m d va &&& ptePS ≠ 0
  · rw [translate_big hp hbig] at ht
    rw [translate_big ((present_congr hpde).mpr hp) (hpde ▸ hbig), hpde]
    exact ht
  · have hpresent : pteOf m d va &&& pteP ≠ 0 := by
      intro hzero
      rw [pteOf, if_pos hp] at hzero
      have hnone : translate m d va = none := (if_neg hp).trans ((if_neg hbig).trans (if_pos hzero))
      rw [hnone] at ht
      cases ht
    rw [translate_congr hpde (hpte va hpresent)]
    exact ht

end Keeps

/-- Addresses of one page have one entry. -/
theorem pteOf_page (m : Mem) (d : Addr) {va va' : Addr} (hpdx : pdx va = pdx va')
    (hptx : ptx va = ptx va') : pteOf m d va = pteOf m d va' := by
  have hpde : pdeOf m d va = pdeOf m d va' := pdeOf_congr hpdx
  have hpresent : Present m d va ↔ Present m d va' := by rw [Present, Present, hpde]
  by_cases hp : Present m d va
  · rw [pteOf, pteOf, if_pos hp, if_pos (hpresent.mp hp), tabOf, tabOf, hpde, hptx]
  · rw [pteOf, pteOf, if_neg hp, if_neg (mt hpresent.mpr hp)]

section MapPages
variable {d last : Addr} {perm : Word}

/-- Whatever it returns. -/
theorem mapPagesLoop_keeps : ∀ {fuel : Nat} {start : Addr} {pa : Word} {s s' : Kmem} {l : List Addr}
    {r : Int}, FreeList s l → DirOk s.mem d l →
    mapPagesLoop d last perm fuel start pa s = .ok (r, s') → Keeps d s.mem s'.mem := by
  intro fuel
  induction fuel with
  | zero =>
    intro start pa s s' l r _ _ hrun
    cases hrun
  | succ fuel ih =>
    intro start pa s s' l r hl hd hrun
    by_cases hfree : pteOf s.mem d start &&& pteP = 0
    · by_cases hroom : Present s.mem d start ∨ l ≠ []
      · obtain ⟨s₁, l₁, hstep, hext, hpte, -⟩ := mapPagesLoop_step hl hd hroom hfree last pa perm fuel
        have hkeeps : Keeps d s.mem s₁.mem := .of_entries hext.pde fun va hva => by
          rw [hpte, if_neg]
          intro hpage
          -- the entry that is written is the one that was not present
          have hsame : pteOf s.mem d va = pteOf s.mem d start := by
            obtain ⟨hpdx, hptx⟩ := page_eq_iff.mpr hpage
            exact pteOf_page s.mem d hpdx hptx
          exact hva (hsame ▸ hfree)
        rw [hstep] at hrun
        split_ifs at hrun with heq
        · cases hrun
          exact hkeeps
        · exact hkeeps.trans (ih hext.free hext.dir hrun)
      · obtain ⟨habs, hnil⟩ := not_or.mp hroom
        obtain rfl := not_not.mp hnil
        rw [mapPagesLoop_null hl habs] at hrun
        cases hrun
        exact .refl d s.mem
    · rw [mapPagesLoop_mapped hd hfree last] at hrun
      cases hrun

theorem mapPages_keeps {va : Addr} {size pa : Word} {s s' : Kmem} {l : List Addr} {r : Int}
    (hl : FreeList s l) (hd : DirOk s.mem d l) (hrun : mapPages d va size pa perm s = .ok (r, s')) :
    Keeps d s.mem s'.mem :=
  mapPagesLoop_keeps hl hd hrun

end MapPages

namespace Separate
variable {st st' : VmState} {l : List Addr} {d : Addr}

/-- A page that is taken and written. -/
theorem keeps_take {p : Addr} {m : Mem} (h : Separate st (p :: l)) (hd : d ∈ st.dirs)
    (hm : SameOutside p st.kmem.mem m) : Keeps d st.kmem.mem m :=
  .of_sameDir (hm.sameDir fun hown => (h.dirOk d hd).owns_not_free hown List.mem_cons_self)
    (h.dirOk d hd).aligned

theorem keeps_initUvm {init : Addr} {size : Word} {s : Kmem} (h : Separate st l) (hd : d ∈ st.dirs)
    (hnull : (kalloc st.kmem).1 ≠ 0) (hrun : TuixOS.initUvm d init size st.kmem = .ok s) :
    Keeps d st.kmem.mem s.mem := by
  obtain ⟨p, rest, rfl, hk⟩ := h.kalloc_page hnull
  have hpage : PageAligned p := h.free.aligned p List.mem_cons_self
  have h0 : p ≠ 0 := h.free.ne_zero List.mem_cons_self
  unfold TuixOS.initUvm at hrun
  split_ifs at hrun with hsize
  simp only [hk] at hrun
  obtain ⟨⟨r, s₁⟩, hmap, hret⟩ := bind_eq_ok.mp hrun
  cases hret
  obtain ⟨hclear, -⟩ := h.takeCleared
  obtain ⟨l₁, hmapped, -⟩ := hclear.mapPages hd hmap
  have hfirst : Keeps d st.kmem.mem (memset p 0 pgSize st.kmem.mem).2 :=
    h.keeps_take hd (sameOutside_memset hpage h0 0 st.kmem.mem)
  have hkeeps := mapPages_keeps hclear.free (hclear.dirOk d hd) hmap
  have hmove := sameOutside_memmove hpage init (BitVec.not_lt.mp hsize) s₁.mem
  obtain ⟨-, hsame⟩ := hmapped.write List.mem_cons_self hmove
  have hlast : Keeps d s₁.mem (memmove p init size s₁.mem).2 :=
    .of_sameDir (hsame d hd) (hmapped.dirOk d hd).aligned
  exact (hfirst.trans hkeeps).trans hlast

theorem keeps_step {op : VmOp} (h : Separate st l) (hstep : VmStep st op st') (hd : d ∈ st.dirs) :
    d ∈ st'.dirs ∧ Keeps d st.kmem.mem st'.kmem.mem := by
  have hothers : op.dir ≠ some d → Keeps d st.kmem.mem st'.kmem.mem := fun hne =>
    .of_sameDir ((h.step hstep).2 d hd hne) (h.dirOk d hd).aligned
  cases hstep with
  | setupKvm hrun hnull => exact ⟨List.mem_cons_of_mem _ hd, hothers (Option.some_ne_none d).symm⟩
  | @initUvm pgdir _ _ _ hdir hnull hrun =>
    refine ⟨hd, ?_⟩
    by_cases hne : pgdir = d
    · subst hne
      exact h.keeps_initUvm hd hnull hrun
    · exact hothers fun he => hne (Option.some.inj he)
  | @mapPages pgdir _ _ _ _ _ _ hdir hrun =>
    refine ⟨hd, ?_⟩
    by_cases hne : pgdir = d
    · subst hne
      exact mapPages_keeps h.free (h.dirOk pgdir hd) hrun
    · exact hothers fun he => hne (Option.some.inj he)

end Separate

/-- **Mappings are permanent.** However `setup_kvm`, `init_uvm` and `map_pages` are called, with
whatever arguments, and whether or not `map_pages` succeeds, a directory stays a directory, and every
translation that it has stays with its frame and its rights. -/
theorem mappings_permanent {s : Kmem} {l₀ : List Addr} (hl : FreeList s l₀) {ops ops' : List VmOp}
    {st st' : VmState} (hrun : Run VmStep ⟨s, [], []⟩ ops st) (hrun' : Run VmStep st ops' st') {d : Addr}
    (hd : d ∈ st.dirs) : d ∈ st'.dirs ∧
      ∀ va t, translate st.kmem.mem d va = some t → translate st'.kmem.mem d va = some t := by
  have hinit : Separate ⟨s, [], []⟩ l₀ :=
    ⟨hl, by simp, List.nodup_nil, by simp, List.nodup_nil, by simp⟩
  have hsep : ∃ l, Separate st l :=
    hrun.state_invariant (I := fun st => ∃ l, Separate st l) ⟨l₀, hinit⟩
      fun _ _ _ h hstep => (h.choose_spec.step hstep).1
  have hkept := hrun'.state_invariant
    (I := fun u => (∃ l, Separate u l) ∧ d ∈ u.dirs ∧ Keeps d st.kmem.mem u.kmem.mem)
    ⟨hsep, hd, .refl d _⟩ fun _ u u' ⟨⟨l, h⟩, hmem, hkeeps⟩ hstep => by
      obtain ⟨hmem', hkeeps'⟩ := h.keeps_step hstep hmem
      exact ⟨(h.step hstep).1, hmem', hkeeps.trans hkeeps'⟩
  exact hkept.2

/-- The code page of a process, after the directory of the next one is made. -/
theorem mappings_permanent_next : ∃ st st' d ops ops', Run VmStep ⟨someFree 140, [], []⟩ ops st ∧
    Run VmStep st ops' st' ∧ ops'.length = 1 ∧ d ∈ st'.dirs ∧
      ∃ pa, translate st'.kmem.mem d 5 = some ⟨pa, true, true⟩ := by
  have hal : PageAligned 0x80110000 := by decide
  have hlo : kernLink < 0x80110000 := by decide
  have hhi : 0x80110000 < p2v physTop := by decide
  have hl := someFree_ok 140 (by decide)
  have hlen : (somePages 140).length = 140 := by simp [somePages]
  have himg : CodeImage 0x80105000 35 (somePages 140) := codeImage_text (by decide)
  have hsep : Separate ⟨someFree 140, [], []⟩ (somePages 140) :=
    ⟨hl, by simp, List.nodup_nil, by simp, List.nodup_nil, by simp⟩
  obtain ⟨d, f, s₁, s₂, hsetup, hinit, hnew, -⟩ := newSpace hal hlo hhi hsep (by omega) himg
  have hf := setupKvm_kalloc hal hlo hhi hl (by omega) hsetup
  have hfree := hnew.separate.free
  obtain ⟨d₂, s₃, hnext, hk₂⟩ := setupKvm_ok hal hlo hhi hfree (by rw [List.length_drop, hlen]; decide)
  have hfirst : VmStep ⟨someFree 140, [], []⟩ _ _ := .setupKvm hsetup hnew.ne_zero
  have hrun := (Run.single hfirst).snoc (.initUvm List.mem_cons_self hf hinit)
  have hrun' : Run VmStep ⟨s₂, [d], [(kalloc s₁).1]⟩ _ _ :=
    Run.single (.setupKvm hnext (hfree.ne_zero hk₂.page))
  have hpage : translate s₂.mem d 5 = some ⟨v2p f + 5, true, true⟩ := by
    rw [hnew.dir.translate hal hlo hhi hnew.aligned]
    rfl
  obtain ⟨hmem, hkept⟩ := mappings_permanent hl hrun hrun' List.mem_cons_self
  exact ⟨_, _, d, _, _, hrun, hrun', rfl, hmem, _, hkept 5 _ hpage⟩

end TuixOS
