import Hypergrid.ScanInvariant

/-!
# Scans are consistent

Every lookup of a scan that returns `Ok` finds the version that the scanning bank saw when the
scan registered, whatever roots, stores, purges and clean passes come in between.

* `inv_step` : every admissible step keeps the invariant.
* `scan_consistent` : the result.
-/

namespace Hypergrid
open List Option Finset VersionList AccountsIndex

theorem counted_set {scans : List Scan} {i : Nat} {scan : Scan} (h : scans[i]? = some scan)
    (scan' : Scan) :
    ((scans.set i scan').filterMap Scan.counted : Multiset Slot) + scan.counted.toList =
      (scans.filterMap Scan.counted : Multiset Slot) + scan'.counted.toList := by
  have hcons : ∀ (x : Scan) (l : List Scan), ((x :: l).filterMap Scan.counted : Multiset Slot) =
      (x.counted.toList : Multiset Slot) + (l.filterMap Scan.counted : Multiset Slot) := by
    intro x l
    cases hx : x.counted with
    | none => rw [filterMap_cons_none hx, toList_none, Multiset.coe_nil, zero_add]
    | some root =>
      rw [filterMap_cons_some hx, toList_some, Multiset.coe_singleton,
        Multiset.singleton_add, Multiset.cons_coe]
  induction scans generalizing i with
  | nil => cases h
  | cons x l ih =>
    cases i with
    | zero =>
      rw [getElem?_cons_zero, some.injEq] at h
      subst h
      rw [set_cons_zero, hcons, hcons]
      abel
    | succ i =>
      rw [set_cons_succ, hcons, hcons, add_assoc, ih h, add_assoc]

/-- The slots that a scan has to see: those of the scanning bank, if the registered max root is
one of its ancestors, and else the roots up to the max root. -/
def Registration.Sees (reg : Registration) (ancestors : Finset Slot) (slot : Slot) : Prop :=
  if reg.maxRoot ∈ ancestors then slot ∈ ancestors ∨ slot ∈ reg.index.aliveRoots
  else slot ≤ reg.maxRoot ∧ slot ∈ reg.index.aliveRoots

namespace ScanDb

variable {tree : BlockTree} {s s' : ScanDb}

section Threads
variable {scans : List Scan} {i : Nat} {scan scan' : Scan} {reg : Registration}
variable (h : s.Inv tree)
include h

theorem Inv.withThreads {roots : Multiset Slot} {minRoot : Option Slot} {passes : List CleanPass}
    (hcounted : roots = scans.filterMap Scan.counted)
    (hmin : minRoot = minOngoingScanRootFromBtree roots)
    (hpasses : ∀ pass ∈ passes, s.PassOk tree pass)
    (hactive : ∀ scan ∈ scans, scan.Active → ∀ reg, scan.registration = some reg →
      s.Horizon reg.maxRoot)
    (hscans : ∀ scan ∈ scans, s.ScanOk tree scan) :
    Inv tree { s with
      scans := scans, ongoingScanRoots := roots, minOngoingScanRoot := minRoot, passes := passes }
    where
  forks := ⟨h.forks.nodup, h.forks.maxRoot, h.forks.rooted, h.forks.frozen, h.forks.unique,
    h.forks.alive, h.forks.kept⟩
  counted := hcounted
  minRoot := hmin
  passes := fun pass hpass => by
    have hhorizon : ∀ top, (top = s.maxRootInclusive ∨ ∃ scan ∈ scans, scan.Active ∧
        ∃ reg, scan.registration = some reg ∧ reg.maxRoot = top) → s.Horizon top := by
      rintro top (htop | ⟨scan, hscan, hact, reg, hreg, rfl⟩)
      · exact .inl htop
      · exact hactive scan hscan hact reg hreg
    have hok := hpasses pass hpass
    refine ⟨hok.proposed, hok.fresh, fun c hc top htop => hok.bound c hc top (hhorizon top htop),
      fun c hc x hx => ?_⟩
    have hcand := hok.candidates c hc x hx
    exact ⟨hcand.roots, hcand.all, fun top htop => hcand.covered top (hhorizon top htop)⟩
  scans := fun scan hscan => ScanOk.mono (s := s) (fun _ hr => hr) (fun _ ht => .inr ht)
    (fun _ _ _ hw => .inr ⟨hw.maxRoot, hw.tracks, hw.rooted, hw.holds⟩)
    (fun _ hf => ⟨hf.roots, hf.lookups⟩) (hscans scan hscan)

theorem Inv.withScan (hget : s.scans[i]? = some scan) {roots : Multiset Slot}
    {minRoot : Option Slot} (hmin : minRoot = minOngoingScanRootFromBtree roots)
    (hroots : roots + scan.counted.toList = s.ongoingScanRoots + scan'.counted.toList)
    (hactive : scan'.Active → ∀ reg, scan'.registration = some reg → s.Horizon reg.maxRoot)
    (hok : s.ScanOk tree scan') :
    Inv tree { s with
      scans := s.scans.set i scan', ongoingScanRoots := roots, minOngoingScanRoot := minRoot } := by
  refine h.withThreads ?_ hmin h.passes (fun x hx hact reg hreg => ?_) fun x hx => ?_
  · rw [h.counted, ← counted_set hget scan'] at hroots
    exact add_right_cancel hroots
  · rcases mem_or_eq_of_mem_set hx with hx | rfl
    · exact horizon_of_active hx hact hreg
    · exact hactive hact reg hreg
  · rcases mem_or_eq_of_mem_set hx with hx | rfl
    · exact h.scans x hx
    · exact hok

theorem Inv.setScan (hget : s.scans[i]? = some scan) (hcounted : scan'.counted = scan.counted)
    (hactive : scan'.Active → ∀ reg, scan'.registration = some reg → s.Horizon reg.maxRoot)
    (hok : s.ScanOk tree scan') : (s.setScan i scan').Inv tree :=
  h.withScan hget h.minRoot (by rw [hcounted]) hactive hok

theorem inv_beginScan {b : BankId} {ancestors : Finset Slot}
    (hok : s.Admissible tree (.beginScan b ancestors)) : (s.beginScan b ancestors).Inv tree := by
  refine h.withThreads ?_ h.minRoot h.passes (fun x hx hact reg hreg => ?_) fun x hx => ?_
  · rw [filterMap_append, h.counted]
    have hnone : ∀ scan : Scan, scan.registration = none → [scan].filterMap Scan.counted = [] := by
      intro scan hreg
      have hcount : scan.counted = none := by
        unfold Scan.counted
        rw [hreg]
        exact ite_self _
      rw [filterMap_cons_none hcount, filterMap_nil]
    rw [hnone _ rfl, append_nil]
  · rcases mem_append.mp hx with hx | hx
    · exact horizon_of_active hx hact hreg
    · rw [List.mem_singleton] at hx
      subst hx
      cases hreg
  · rcases mem_append.mp hx with hx | hx
    · exact h.scans x hx
    · rw [List.mem_singleton] at hx
      subst hx
      unfold ScanOk
      split_ifs with hremoved
      · exact fun hfalse => absurd hfalse Bool.false_ne_true
      · exact ⟨rfl, .inr (hok.resolve_left hremoved).2⟩

variable (hget : s.scans[i]? = some scan)
include hget

/-- The scan that reads the max root sees what the lookups will find. -/
theorem inv_readMaxRoot (hphase : scan.phase = .checked) : (s.readMaxRoot i scan).Inv tree := by
  have hscan := h.scans scan (mem_of_getElem? hget)
  unfold ScanOk at hscan
  rw [hphase] at hscan
  obtain ⟨hlookups, hok⟩ := hscan
  refine h.setScan hget ?_ (fun _ reg hreg => ?_) ⟨_, rfl, hok.imp_right fun htracks => ?_⟩
  · unfold Scan.counted
    rw [hphase]
    rfl
  · cases hreg
    exact .inl rfl
  · refine ⟨⟨le_rfl, htracks, fun slot hslot hle => ?_, fun k => h.forks.holds_get k⟩, ?_, ?_⟩
    · unfold Registration.usedAncestors at hslot
      split_ifs at hslot with hmax
      · exact h.forks.ancestors_rooted htracks hmax hslot hle
      · exact absurd hslot (notMem_empty _)
    · exact fun slot hslot => h.forks.le_maxRoot (h.forks.alive slot hslot)
    · intro x hx
      rw [hlookups] at hx
      exact absurd hx not_mem_nil

theorem inv_register (hphase : scan.phase = .registering) (hreg : scan.registration = some reg) :
    (s.register i scan reg).Inv tree := by
  have hmem := mem_of_getElem? hget
  have hscan := h.scans scan hmem
  unfold ScanOk at hscan
  rw [hphase] at hscan
  refine h.withScan hget rfl ?_ (fun _ reg' hreg' => ?_) ?_
  · have hbefore : scan.counted = none := by
      unfold Scan.counted
      rw [hphase]
      rfl
    have hafter : Scan.counted { scan with phase := .scanning } = some reg.maxRoot := by
      unfold Scan.counted
      rw [if_pos rfl, hreg]
      rfl
    rw [hbefore, hafter, toList_none, Multiset.coe_nil, add_zero, toList_some,
      Multiset.coe_singleton, add_comm, Multiset.singleton_add]
    rfl
  · exact horizon_of_active hmem (.inl hphase) hreg'
  · obtain ⟨reg', hreg', hok⟩ := hscan
    exact ⟨reg', hreg', hok.imp_right fun ⟨hw, hf⟩ =>
      ⟨⟨hw.maxRoot, hw.tracks, hw.rooted, hw.holds⟩, hf.roots, hf.lookups⟩⟩

theorem inv_lookup (hphase : scan.phase = .scanning) (hreg : scan.registration = some reg)
    (k : Pubkey) : (s.lookup i scan reg k).Inv tree := by
  have hmem := mem_of_getElem? hget
  have hscan := h.scans scan hmem
  unfold ScanOk at hscan
  rw [hphase] at hscan
  refine h.setScan hget rfl (fun _ reg' hreg' =>
    horizon_of_active hmem (.inr hphase) hreg') ?_
  unfold ScanOk
  rw [hphase]
  obtain ⟨reg', hreg', hok⟩ := hscan
  rw [hreg, some.injEq] at hreg'
  subst hreg'
  refine ⟨reg, hreg, hok.imp_right fun ⟨hw, hf⟩ =>
    ⟨⟨hw.maxRoot, hw.tracks, hw.rooted, hw.holds⟩, hf.roots, fun x hx => ?_⟩⟩
  rcases mem_append.mp hx with hx | hx
  · exact hf.lookups x hx
  · rw [List.mem_singleton] at hx
    subst hx
    exact h.forks.lookup_eq (hw.holds k)

theorem inv_unregister (hphase : scan.phase = .scanning) (hreg : scan.registration = some reg)
    (hs' : s.unregister i scan reg = some s') : s'.Inv tree := by
  have hmem := mem_of_getElem? hget
  have hscan := h.scans scan hmem
  unfold ScanOk at hscan
  rw [hphase] at hscan
  unfold unregister at hs'
  split_ifs at hs' with hroot
  cases hs'
  refine h.withScan hget rfl ?_ ?_ ?_
  · have hbefore : scan.counted = some reg.maxRoot := by
      unfold Scan.counted
      rw [if_pos hphase, hreg]
      rfl
    have hafter : Scan.counted { scan with phase := .scanned } = none := rfl
    rw [hbefore, hafter, toList_none, Multiset.coe_nil, add_zero, toList_some,
      Multiset.coe_singleton, add_comm, Multiset.singleton_add]
    exact Multiset.cons_erase hroot
  · rintro (hact | hact) <;> cases hact
  · obtain ⟨reg', hreg', hok⟩ := hscan
    exact ⟨reg', hreg', hok.imp_right fun ⟨_, hf⟩ => ⟨hf.roots, hf.lookups⟩⟩

theorem inv_finish (hphase : scan.phase = .scanned) : (s.finish i scan).Inv tree := by
  have hscan := h.scans scan (mem_of_getElem? hget)
  unfold ScanOk at hscan
  rw [hphase] at hscan
  obtain ⟨reg, hreg, hok⟩ := hscan
  refine h.setScan hget ?_ ?_ ?_
  · unfold Scan.counted
    rw [hphase]
    rfl
  · rintro (hact | hact) <;> cases hact
  · intro htrue
    have hf := hok.resolve_left (of_decide_eq_true htrue)
    exact ⟨reg, hreg, hf.roots, hf.lookups⟩

end Threads

section Passes
variable {j : Nat} {pass pass' : CleanPass} {bound : Slot} {k : Pubkey}
variable (h : s.Inv tree)
include h

theorem Inv.withPasses {passes : List CleanPass}
    (hpasses : ∀ pass ∈ passes, s.PassOk tree pass) : Inv tree { s with passes := passes } :=
  h.withThreads h.counted h.minRoot hpasses
    (fun _ hscan hact _ hreg => horizon_of_active hscan hact hreg) h.scans

theorem Inv.setPass (hok : s.PassOk tree pass') : (s.setPass j pass').Inv tree := by
  refine h.withPasses fun x hx => ?_
  rcases mem_or_eq_of_mem_set hx with hx | rfl
  · exact h.passes x hx
  · exact hok

theorem inv_beginClean {proposed : Slot} (hok : s.Admissible tree (.beginClean proposed)) :
    Inv tree { s with passes := s.passes ++ [⟨proposed, none, [], [], ∅⟩] } := by
  refine h.withPasses fun x hx => ?_
  rcases mem_append.mp hx with hx | hx
  · exact h.passes x hx
  · rw [List.mem_singleton] at hx
    subst hx
    exact ⟨hok, fun _ => rfl, fun c hc => (nomatch hc), fun c hc => (nomatch hc)⟩

theorem cleanBound_le (hfree : s.scanRootsFree = true) {proposed top : Slot}
    (hle : proposed ≤ s.maxRootInclusive) (htop : s.Horizon top) :
    s.cleanBound proposed ≤ top := by
  have hproposed : s.cleanBound proposed ≤ proposed := by
    unfold CleanDb.cleanBound FlushDb.maxCleanRoot
    cases s.minOngoingScanRoot with
    | none => exact le_rfl
    | some m => exact min_le_right _ _
  rcases htop with rfl | ⟨scan, hscan, hact, reg, hreg, rfl⟩
  · exact hproposed.trans hle
  · have hphase : scan.phase = .scanning := by
      refine hact.resolve_left ?_
      exact of_decide_eq_true (all_eq_true.mp hfree scan hscan)
    have hmem : reg.maxRoot ∈ s.ongoingScanRoots := by
      rw [h.counted, Multiset.mem_coe, List.mem_filterMap]
      refine ⟨scan, hscan, ?_⟩
      unfold Scan.counted
      rw [if_pos hphase, hreg]
      rfl
    obtain ⟨m, hm, hle'⟩ := minOngoingScanRoot_le hmem
    unfold CleanDb.cleanBound FlushDb.maxCleanRoot
    rw [h.minRoot, hm]
    exact (min_le_left _ _).trans hle'

theorem inv_readBound (hget : s.passes[j]? = some pass)
    (hnone : pass.bound = none) (hfree : s.scanRootsFree = true) :
    (s.setPass j { pass with bound := some (s.cleanBound pass.proposed) }).Inv tree := by
  have hok := h.passes pass (mem_of_getElem? hget)
  refine h.setPass ⟨hok.proposed, fun hc => (nomatch hc), fun c hc top htop => ?_,
    fun c _ x hx => ?_⟩
  · cases hc
    exact cleanBound_le h hfree hok.proposed htop
  · dsimp only at hx
    rw [hok.fresh hnone] at hx
    exact absurd hx not_mem_nil

theorem candidate_of_scan {p : Purge}
    (hle : ∀ top, s.Horizon top → bound ≤ top) (hp : s.scanZeroLamports bound k = some p) :
    s.Candidate tree bound k p := by
  obtain ⟨e, hget, hite⟩ := bind_eq_some_iff.mp hp
  split_ifs at hite with hzero
  cases hite
  have hmem : ∀ x, x ∈ s.getRootedEntries (s.slotList k) bound ↔
      x ∈ s.slotList k ∧ x.1 ≤ bound ∧ x.1 ∈ s.aliveRoots := by
    intro x
    unfold CleanDb.getRootedEntries
    rw [mem_filter, Bool.and_eq_true, decide_eq_true_iff, decide_eq_true_iff]
  have hslots : ∀ slot, slot ∈ Purge.slots ⟨s.getRootedEntries (s.slotList k) bound,
      s.refCount k⟩ → slot ≤ bound ∧ slot ∈ s.aliveRoots := by
    intro slot hslot
    obtain ⟨x, hx, rfl⟩ := mem_map.mp (mem_toFinset.mp hslot)
    exact ((hmem x).mp hx).2
  obtain ⟨he, hvis, hmax⟩ := get_eq_some hget
  obtain ⟨hebound, healive⟩ := hvis.resolve_left (notMem_empty _)
  refine ⟨fun slot hslot => ?_, fun x hx hxle hroot => ?_, fun top htop x hx hslot => ?_⟩
  · exact (hslots slot hslot).imp_right (h.forks.alive slot)
  · exact (hmem x).mpr ⟨hx, hxle, h.forks.kept k x hx hroot⟩
  · -- the newest root has no lamports; every other one is older
    rcases lt_or_eq_of_le (hmax x hx (.inr (hslots x.1 hslot))) with hlt | heq
    · exact .inr ⟨e, he, h.forks.alive _ healive, hlt, le_trans hebound (hle top htop)⟩
    · rw [inj_on_of_nodup_map (h.forks.nodup k) hx he heq]
      exact .inl hzero

theorem inv_collect (hget : s.passes[j]? = some pass)
    (hbound : pass.bound = some bound) : (s.collect j pass bound k).Inv tree := by
  have hok := h.passes pass (mem_of_getElem? hget)
  unfold collect
  cases hp : s.scanZeroLamports bound k with
  | none => exact h
  | some p =>
    refine h.setPass ⟨hok.proposed, fun hc => ?_, hok.bound, fun c hc x hx => ?_⟩
    · rw [hbound] at hc
      cases hc
    · rcases mem_cons.mp hx with rfl | hx
      · dsimp only at hc
        rw [hbound, some.injEq] at hc
        subst hc
        exact candidate_of_scan h (hok.bound _ hbound) hp
      · exact hok.candidates c hc x hx

end Passes

theorem scanStep_eq_some {phase : ScanPhase} {i : Nat} {f : Scan → Option ScanDb}
    (h : s.scanStep phase i f = some s') :
    ∃ scan, s.scans[i]? = some scan ∧ scan.phase = phase ∧ f scan = some s' := by
  obtain ⟨scan, hget, hite⟩ := bind_eq_some_iff.mp h
  split_ifs at hite with hphase
  exact ⟨scan, hget, hphase, hite⟩

theorem passStep_eq_some {j : Nat} {f : CleanPass → Slot → Option ScanDb}
    (h : s.passStep j f = some s') :
    ∃ pass bound, s.passes[j]? = some pass ∧ pass.bound = some bound ∧ f pass bound = some s' := by
  obtain ⟨pass, hget, hbind⟩ := bind_eq_some_iff.mp h
  obtain ⟨bound, hbound, hf⟩ := bind_eq_some_iff.mp hbind
  exact ⟨pass, bound, hget, hbound, hf⟩

theorem inv_step (s : ScanDb) (e : ScanEvent) (s' : ScanDb) (h : s.Inv tree)
    (hok : s.Admissible tree e) (hstep : step tree s e = some s') : s'.Inv tree := by
  cases e with
  | freeze b =>
    cases hstep
    exact (moves_freeze h.forks hok).inv h
  | addRoot b => exact (moves_addRoot h.forks hok hstep).inv h
  | upsert slot k info =>
    cases hstep
    refine Changes.inv (changes_withDb h.forks rfl (upsert_nodup h.forks.nodup)
      subset_rfl (fun _ _ _ halive => halive) fun k' e hfrozen => ?_) h
    have hne : e.1 ≠ slot := fun heq => hok (heq ▸ hfrozen)
    rw [mem_upsert, or_iff_right fun hc => hne (congrArg Prod.fst hc.2),
      and_iff_left fun hc => hne hc.2]
  | removeBankId b =>
    cases hstep
    exact (moves_withRemovedBankIds h.forks fun _ _ _ hr => mem_insert_of_mem hr).inv h
  | dropBankId b =>
    cases hstep
    exact (moves_withRemovedBankIds h.forks fun scan hscan hrun hr =>
      mem_erase.mpr ⟨hok scan hscan hrun, hr⟩).inv h
  | giveUp b =>
    cases hstep
    exact (moves_giveUp h.forks hok).inv h
  | purgeSlot slot k =>
    cases hstep
    refine Changes.inv (changes_withDb h.forks rfl (purgeExact_nodup h.forks.nodup)
      subset_rfl (fun _ _ _ halive => halive) fun k' e hfrozen => ?_) h
    have hne : e.1 ≠ slot := fun heq => hok (heq ▸ hfrozen)
    rw [mem_purgeExact, and_iff_left fun hc => hne hc.2]
  | beginScan b ancestors =>
    cases hstep
    exact inv_beginScan h hok
  | readMaxRoot i =>
    dsimp only [step] at hstep
    split_ifs at hstep with hfree
    obtain ⟨scan, hget, hphase, hs'⟩ := scanStep_eq_some hstep
    cases hs'
    exact inv_readMaxRoot h hget hphase
  | register i =>
    obtain ⟨scan, hget, hphase, hs'⟩ := scanStep_eq_some hstep
    obtain ⟨reg, hreg, rfl⟩ := map_eq_some_iff.mp hs'
    exact inv_register h hget hphase hreg
  | lookup i k =>
    obtain ⟨scan, hget, hphase, hs'⟩ := scanStep_eq_some hstep
    obtain ⟨reg, hreg, rfl⟩ := map_eq_some_iff.mp hs'
    exact inv_lookup h hget hphase hreg k
  | unregister i =>
    dsimp only [step] at hstep
    split_ifs at hstep with hfree
    obtain ⟨scan, hget, hphase, hs'⟩ := scanStep_eq_some hstep
    obtain ⟨reg, hreg, hs'⟩ := bind_eq_some_iff.mp hs'
    exact inv_unregister h hget hphase hreg hs'
  | finish i =>
    obtain ⟨scan, hget, hphase, hs'⟩ := scanStep_eq_some hstep
    cases hs'
    exact inv_finish h hget hphase
  | beginClean proposed =>
    cases hstep
    exact inv_beginClean h hok
  | readBound j =>
    obtain ⟨pass, hget, hite⟩ := bind_eq_some_iff.mp hstep
    split_ifs at hite with hcond
    cases hite
    exact inv_readBound h hget hcond.1 hcond.2
  | collect j k =>
    obtain ⟨pass, bound, hget, hbound, hs'⟩ := passStep_eq_some hstep
    cases hs'
    exact inv_collect h hget hbound
  | cleanRooted j k =>
    obtain ⟨pass, bound, hget, hbound, hs'⟩ := passStep_eq_some hstep
    cases hs'
    exact (changes_cleanRooted h.forks hget hbound
      (h.passes pass (mem_of_getElem? hget))).inv h
  | purgeKey j k slots =>
    obtain ⟨pass, bound, hget, hbound, hs'⟩ := passStep_eq_some hstep
    obtain ⟨p, hp, hs'⟩ := bind_eq_some_iff.mp hs'
    have hmem : (k, p) ∈ pass.purgesZeroLamports := by
      obtain ⟨l₁, l₂, heq, _⟩ := lookup_eq_some_iff.mp hp
      rw [heq]
      exact mem_append_right _ mem_cons_self
    exact (changes_purgeKey h.forks hget hbound (h.passes pass (mem_of_getElem? hget))
      hmem hs').inv h
  | cleanDeadSlot slot =>
    cases hstep
    refine Changes.inv (changes_withDb h.forks rfl h.forks.nodup sdiff_subset
      (fun k e he halive => ?_) fun _ _ _ => .rfl) h
    exact Finset.mem_sdiff.mpr ⟨halive, fun hmem => hok k e he (Finset.mem_singleton.mp hmem)⟩

/-- The lookup has found the newest version that the scan had to see when it registered.  A
version without lamports that a clean pass has purged counts as absent. -/
def Yields (s : ScanDb) (scan : Scan) (reg : Registration) (k : Pubkey) :
    Option (Slot × AccountInfo) → Prop
  | some e => Newest (reg.Sees scan.ancestors) (reg.index.slotList k) e
  | none => Absent (reg.Sees scan.ancestors) (reg.index.slotList k) ∨
      ∃ e, Newest (reg.Sees scan.ancestors) (reg.index.slotList k) e ∧ s.Gone k e

/-- The index has the roots of one fork, and nothing runs. -/
structure Start (tree : BlockTree) (s : ScanDb) : Prop where
  forks : s.Forks tree
  scans : s.scans = []
  passes : s.passes = []
  ongoing : s.ongoingScanRoots = 0
  minRoot : s.minOngoingScanRoot = none

theorem Start.inv (h : Start tree s) : s.Inv tree where
  forks := h.forks
  counted := by rw [h.ongoing, h.scans]; rfl
  minRoot := by rw [h.minRoot, h.ongoing]; rfl
  passes := fun pass hpass => by
    rw [h.passes] at hpass
    exact absurd hpass not_mem_nil
  scans := fun scan hscan => by
    rw [h.scans] at hscan
    exact absurd hscan not_mem_nil

theorem Found.yields {scan : Scan} {reg : Registration} (h : s.Found scan reg)
    {x : Pubkey × Option (Slot × AccountInfo)} (hx : x ∈ scan.lookups) :
    s.Yields scan reg x.1 x.2 := by
  have hsees : ∀ slot, reg.index.Visible (reg.usedAncestors scan.ancestors) (some reg.maxRoot)
      slot ↔ reg.Sees scan.ancestors slot := by
    intro slot
    unfold AccountsIndex.Visible Registration.usedAncestors Registration.Sees
    split_ifs with hmax
    · exact or_congr_right (and_iff_right_of_imp (h.roots slot))
    · exact or_iff_right (notMem_empty _)
  have hsome : ∀ e, scan.expected reg x.1 = some e →
      Newest (reg.Sees scan.ancestors) (reg.index.slotList x.1) e := by
    intro e he
    obtain ⟨hmem, hvis, hle⟩ := get_eq_some he
    exact ⟨hmem, (hsees e.1).mp hvis, fun e' he' hv => hle e' he' ((hsees e'.1).mpr hv)⟩
  rcases h.lookups x hx with heq | ⟨hnone, e, he, hgone⟩
  · rw [heq]
    cases hexp : scan.expected reg x.1 with
    | none =>
      refine .inl fun e he hv => ?_
      exact (get_eq_none_iff _ _ _ _).mp hexp e he ((hsees e.1).mpr hv)
    | some e => exact hsome e hexp
  · rw [hnone]
    exact .inr ⟨e, hsome e he, hgone⟩

/-- Every lookup of a scan that returns `Ok` yields what was there when the scan registered. -/
theorem scan_consistent (tree : BlockTree) (start s : ScanDb) (events : List ScanEvent)
    (hstart : Start tree start)
    (hrun : Machine.GuardedRun (step tree) (Admissible tree) start events s) :
    ∀ scan ∈ s.scans, scan.phase = .returned true →
      ∃ reg, scan.registration = some reg ∧
        ∀ x ∈ scan.lookups, s.Yields scan reg x.1 x.2 := by
  intro scan hscan hphase
  have hinv : s.Inv tree := hrun.invariant inv_step hstart.inv
  have hok := hinv.scans scan hscan
  unfold ScanOk at hok
  rw [hphase] at hok
  obtain ⟨reg, hreg, hfound⟩ := hok rfl
  exact ⟨reg, hreg, fun x hx => hfound.yields hx⟩

def chain : BlockTree where
  slot := id
  parent := fun b => if b = 0 then none else some (b - 1)
  parent_lt := fun b p h => by
    split_ifs at h with hb
    cases h
    exact Nat.sub_one_lt hb

theorem chain_ancestor {a b : BankId} (h : a ≤ b) : chain.Ancestor a b := by
  induction b with
  | zero =>
    rw [Nat.le_zero.mp h]
    exact .refl
  | succ b ih =>
    rcases Nat.le_succ_iff.mp h with hle | rfl
    · have hparent : chain.parent (b + 1) = some b := rfl
      exact .head hparent (ih hle)
    · exact .refl

def scannedKey : Pubkey := .ofNat (2 ^ 255 + 61)

/-- Slot 0 is the root and has a version of the account. -/
def rootedAtZero : ScanDb where
  toFlushDb := .withoutRoots
    { AccountsDb.new { sonicProgramId := scannedKey.toString } {0} with
      accountsIndex :=
        { slotList := fun k => if k = scannedKey then [(0, .new (.appendVec 0 0) 7)] else []
          aliveRoots := {0} } } 0
  refCount := fun k => if k = scannedKey then 1 else 0
  count := fun slot => if slot = 0 then 1 else 0
  dirtyStores := []
  uncleanedPubkeys := []
  zeroLamportAccountsToPurgeAfterFullSnapshot := []
  maxRootInclusive := 0
  removedBankIds := ∅
  ongoingScanRoots := 0
  scans := []
  passes := []
  purgedZero := ∅
  frozen := {0}
  rooted := {0}
  root := 0

theorem rootedAtZero_start : Start chain rootedAtZero := by
  have hlist : ∀ k, ∀ e ∈ rootedAtZero.slotList k, e = (0, .new (.appendVec 0 0) 7) := by
    intro k e he
    dsimp only [CleanDb.slotList, rootedAtZero, FlushDb.withoutRoots] at he
    split_ifs at he
    · exact List.mem_singleton.mp he
    · cases he
  refine ⟨⟨fun k => ?_, rfl, fun b => ?_, Finset.Subset.refl _, fun b hb b' hb' _ => ?_,
    fun slot hslot => ⟨0, Finset.mem_singleton_self 0, (Finset.mem_singleton.mp hslot).symm⟩,
    fun k e he _ => ?_⟩, rfl, rfl, rfl, rfl⟩
  · dsimp only [CleanDb.slotList, rootedAtZero, FlushDb.withoutRoots]
    split_ifs <;> decide
  · constructor
    · intro hb
      rw [Finset.mem_singleton.mp hb]
      exact .refl
    · intro hanc
      exact Finset.mem_singleton.mpr (Nat.le_zero.mp hanc.slot_le)
  · rw [Finset.mem_singleton.mp hb, Finset.mem_singleton.mp hb']
  · rw [hlist k e he]
    exact Finset.mem_singleton_self 0

/-- The account is stored and frozen in slot 1.  While bank 1 is scanned, it becomes a root, and
a clean pass goes over the account. -/
def cleanDuringScan : List ScanEvent :=
  [.upsert 1 scannedKey (.new .cached 9), .freeze 1, .beginScan 1 {0, 1}, .readMaxRoot 0,
    .beginClean 0, .register 0, .addRoot 1, .beginClean 1, .readBound 1, .cleanRooted 1 scannedKey,
    .lookup 0 scannedKey, .unregister 0, .finish 0]

/-- A test of the steps above on the chain of banks. -/
def admissibleTest (s : ScanDb) : ScanEvent → Bool
  | .freeze b => decide (b ∉ s.frozen ∧ ∀ p, chain.parent b = some p → p ∈ s.frozen)
  | .addRoot b => decide (b ∈ s.frozen ∧ chain.parent b = some s.root)
  | .upsert slot _ _ => decide (slot ∉ s.frozen)
  | .beginScan b ancestors => decide (b ∈ s.frozen ∧ ∀ slot ∈ ancestors, slot ∈ s.frozen ∧ slot ≤ b)
  | .beginClean proposed => decide (proposed ≤ s.maxRootInclusive)
  | .readMaxRoot _ | .register _ | .lookup _ _ | .unregister _ | .finish _ => true
  | .readBound _ | .cleanRooted _ _ => true
  | _ => false

theorem admissible_of_test (s : ScanDb) (e : ScanEvent) (h : admissibleTest s e = true) :
    s.Admissible chain e := by
  have hslot : ∀ slot, s.FrozenSlot chain slot ↔ slot ∈ s.frozen := fun slot =>
    ⟨fun ⟨b, hb, heq⟩ => heq ▸ hb, fun hslot => ⟨slot, hslot, rfl⟩⟩
  cases e with
  | freeze b =>
    obtain ⟨hb, hp⟩ := of_decide_eq_true h
    exact ⟨fun hc => hb ((hslot b).mp hc), hp⟩
  | addRoot b => exact of_decide_eq_true (p := b ∈ s.frozen ∧ chain.parent b = some s.root) h
  | upsert slot k info => exact fun hc => of_decide_eq_true h ((hslot slot).mp hc)
  | beginScan b ancestors =>
    obtain ⟨hb, hall⟩ := of_decide_eq_true h
    refine .inr ⟨hb, fun slot hmem => ⟨slot, (hall slot hmem).1, ?_, rfl⟩⟩
    exact chain_ancestor (hall slot hmem).2
  | beginClean proposed => exact of_decide_eq_true (p := proposed ≤ s.maxRootInclusive) h
  | readMaxRoot i => trivial
  | register i => trivial
  | lookup i k => trivial
  | unregister i => trivial
  | finish i => trivial
  | readBound j => trivial
  | cleanRooted j k => trivial
  | removeBankId b => cases h
  | dropBankId b => cases h
  | giveUp b => cases h
  | purgeSlot slot k => cases h
  | collect j k => cases h
  | purgeKey j k slots => cases h
  | cleanDeadSlot slot => cases h

/-- The scan finds the version of slot 1, which the bank saw when the scan registered. -/
theorem scan_consistent_cleanDuringScan :
    ∃ s, Machine.GuardedRun (step chain) (Admissible chain) rootedAtZero cleanDuringScan s ∧
      s.scans.map Scan.phase = [.returned true] ∧
      s.scans.flatMap Scan.lookups = [(scannedKey, some (1, .new .cached 9))] ∧
      ∀ scan ∈ s.scans, scan.phase = .returned true →
        ∃ reg, scan.registration = some reg ∧
          ∀ x ∈ scan.lookups, s.Yields scan reg x.1 x.2 := by
  have hphases : (Machine.execChecked (step chain) admissibleTest rootedAtZero
      cleanDuringScan).map (fun s => s.scans.map Scan.phase) = some [.returned true] := by
    decide
  have hlookups : (Machine.execChecked (step chain) admissibleTest rootedAtZero
      cleanDuringScan).map (fun s => s.scans.flatMap Scan.lookups) =
      some [(scannedKey, some (1, .new .cached 9))] := by
    decide
  obtain ⟨s, hs, hphase⟩ := map_eq_some_iff.mp hphases
  rw [hs, map_some, some.injEq] at hlookups
  have hrun := Machine.guardedRun_of_execChecked admissible_of_test hs
  exact ⟨s, hrun, hphase, hlookups,
    scan_consistent chain rootedAtZero s cleanDuringScan rootedAtZero_start hrun⟩

end ScanDb
end Hypergrid
