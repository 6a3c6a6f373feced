import Hypergrid.Scan
import Hypergrid.Sweep
import Hypergrid.Lib.VersionList

/-!
# The invariant of checked scans

The invariant has three parts.  `Forks` is about the roots and the index.  `PassOk` says that no
clean pass goes beyond the max root of a scan, and that a purge of a candidate takes all of its
old versions along.  `ScanOk` says that the slot lists still hold what a scan expects.

* `Changes` is a step that changes slot lists; the stores, the purges and the clean passes take
  such steps.
* `Moves` is a step of the bank forks.
-/

namespace Hypergrid
open CleanDb VersionList Finset List AccountsIndex

namespace BlockTree

variable {tree : BlockTree} {a b c : BankId}

theorem Ancestor.slot_le (h : tree.Ancestor a b) : tree.slot a ≤ tree.slot b := by
  induction h with
  | refl => exact le_rfl
  | tail _ hp ih => exact le_trans (le_of_lt (tree.parent_lt _ _ hp)) ih

theorem Ancestor.total (ha : tree.Ancestor a c) (hb : tree.Ancestor b c) :
    tree.Ancestor a b ∨ tree.Ancestor b a := by
  have huniq : Relator.RightUnique (fun x y => tree.parent x = some y) := fun x y z hy hz =>
    Option.some.inj (hy.symm.trans hz)
  exact (Relation.ReflTransGen.total_of_right_unique huniq ha hb).symm

end BlockTree

theorem minOngoingScanRoot_le {roots : Multiset Slot} {root : Slot} (h : root ∈ roots) :
    ∃ m, minOngoingScanRootFromBtree roots = some m ∧ m ≤ root := by
  obtain ⟨m, hm⟩ := min_of_mem (Multiset.mem_toFinset.mpr h)
  exact ⟨m, hm, min_le_of_eq (Multiset.mem_toFinset.mpr h) hm⟩

/-- The scan has read the max root and has not taken it out. -/
def Scan.Active (scan : Scan) : Prop := scan.phase = .registering ∨ scan.phase = .scanning

theorem Scan.Active.running {scan : Scan} (h : scan.Active) : scan.Running := fun ok hphase => by
  rcases h with h | h <;> rw [h] at hphase <;> cases hphase

/-- The root that the scan has counted. -/
def Scan.counted (scan : Scan) : Option Slot :=
  if scan.phase = .scanning then scan.registration.map Registration.maxRoot else none

/-- The entry that a scan expects: what it finds when it registers. -/
def Scan.expected (scan : Scan) (reg : Registration) (k : Pubkey) : Option (Slot × AccountInfo) :=
  reg.index.get k (reg.usedAncestors scan.ancestors) (some reg.maxRoot)

namespace ScanDb

section Statement
variable (tree : BlockTree) (s : ScanDb)

def RootSlot (slot : Slot) : Prop := ∃ b ∈ s.rooted, tree.slot b = slot

/-- The roots are one fork of frozen banks, and the index knows them. -/
structure Forks : Prop where
  nodup : ∀ k, ((s.slotList k).map Prod.fst).Nodup
  maxRoot : s.maxRootInclusive = tree.slot s.root
  rooted : ∀ b, b ∈ s.rooted ↔ tree.Ancestor b s.root
  frozen : s.rooted ⊆ s.frozen
  unique : ∀ b ∈ s.frozen, ∀ b' ∈ s.frozen, tree.slot b = tree.slot b' → b = b'
  alive : ∀ slot ∈ s.aliveRoots, s.RootSlot tree slot
  /-- a root with index entries is not dead -/
  kept : ∀ k, ∀ e ∈ s.slotList k, s.RootSlot tree e.1 → e.1 ∈ s.aliveRoots

/-- The max roots that no clean pass goes beyond. -/
def Horizon (top : Slot) : Prop :=
  top = s.maxRootInclusive ∨ ∃ scan ∈ s.scans, scan.Active ∧
    ∃ reg, scan.registration = some reg ∧ reg.maxRoot = top

/-- A version that is purged with the candidate has no lamports, or there is a newer root up to
the given one. -/
def Covered (k : Pubkey) (p : Purge) (top : Slot) : Prop :=
  ∀ e ∈ s.slotList k, e.1 ∈ p.slots → e.2.isZeroLamport = true ∨
    ∃ e' ∈ s.slotList k, s.RootSlot tree e'.1 ∧ e.1 < e'.1 ∧ e'.1 ≤ top

/-- The candidate has all rooted versions up to the bound. -/
structure Candidate (bound : Slot) (k : Pubkey) (p : Purge) : Prop where
  roots : ∀ slot ∈ p.slots, slot ≤ bound ∧ s.RootSlot tree slot
  all : ∀ e ∈ s.slotList k, e.1 ≤ bound → s.RootSlot tree e.1 → e ∈ p.accountInfos
  covered : ∀ top, s.Horizon top → s.Covered tree k p top

structure PassOk (pass : CleanPass) : Prop where
  proposed : pass.proposed ≤ s.maxRootInclusive
  fresh : pass.bound = none → pass.purgesZeroLamports = []
  bound : ∀ c, pass.bound = some c → ∀ top, s.Horizon top → c ≤ top
  candidates : ∀ c, pass.bound = some c → ∀ x ∈ pass.purgesZeroLamports,
    s.Candidate tree c x.1 x.2

def View (scan : Scan) (reg : Registration) (slot : Slot) : Prop :=
  slot ∈ reg.usedAncestors scan.ancestors ∨ slot ≤ reg.maxRoot ∧ s.RootSlot tree slot

/-- A clean pass has purged the version, which has no lamports. -/
def Gone (k : Pubkey) (e : Slot × AccountInfo) : Prop :=
  e.2.isZeroLamport = true ∧ (k, e.1) ∈ s.purgedZero

/-- The index still holds what the scan expects. -/
structure Watching (scan : Scan) (reg : Registration) : Prop where
  maxRoot : reg.maxRoot ≤ s.maxRootInclusive
  tracks : s.Tracks tree scan.bankId scan.ancestors
  /-- the ancestors up to the max root are roots -/
  rooted : ∀ slot ∈ reg.usedAncestors scan.ancestors, slot ≤ reg.maxRoot → s.RootSlot tree slot
  holds : ∀ k, Holds (s.View tree scan reg) (s.Gone k) (s.slotList k) (scan.expected reg k)

/-- The lookups have found what the scan expects. -/
structure Found (scan : Scan) (reg : Registration) : Prop where
  roots : ∀ slot ∈ reg.index.aliveRoots, slot ≤ reg.maxRoot
  lookups : ∀ x ∈ scan.lookups, x.2 = scan.expected reg x.1 ∨
    x.2 = none ∧ ∃ e, scan.expected reg x.1 = some e ∧ s.Gone x.1 e

def ScanOk (scan : Scan) : Prop :=
  match scan.phase with
  | .checked => scan.lookups = [] ∧
      (scan.bankId ∈ s.removedBankIds ∨ s.Tracks tree scan.bankId scan.ancestors)
  | .registering | .scanning => ∃ reg, scan.registration = some reg ∧
      (scan.bankId ∈ s.removedBankIds ∨ s.Watching tree scan reg ∧ s.Found scan reg)
  | .scanned => ∃ reg, scan.registration = some reg ∧
      (scan.bankId ∈ s.removedBankIds ∨ s.Found scan reg)
  | .returned ok => ok = true → ∃ reg, scan.registration = some reg ∧ s.Found scan reg

structure Inv : Prop where
  forks : s.Forks tree
  counted : s.ongoingScanRoots = s.scans.filterMap Scan.counted
  minRoot : s.minOngoingScanRoot = minOngoingScanRootFromBtree s.ongoingScanRoots
  passes : ∀ pass ∈ s.passes, s.PassOk tree pass
  scans : ∀ scan ∈ s.scans, s.ScanOk tree scan

end Statement

section Forks
variable {tree : BlockTree} {s : ScanDb} {scan : Scan} {reg : Registration} {slot : Slot}
variable (h : s.Forks tree)
include h

theorem Forks.le_maxRoot (hslot : s.RootSlot tree slot) : slot ≤ s.maxRootInclusive := by
  obtain ⟨b, hb, rfl⟩ := hslot
  rw [h.maxRoot]
  exact ((h.rooted b).mp hb).slot_le

theorem Forks.frozenSlot (hslot : s.RootSlot tree slot) : s.FrozenSlot tree slot := by
  obtain ⟨b, hb, rfl⟩ := hslot
  exact ⟨b, h.frozen hb, rfl⟩

theorem Forks.ancestors_rooted {b : BankId} {ancestors : Finset Slot}
    (ht : s.Tracks tree b ancestors) (hmax : s.maxRootInclusive ∈ ancestors)
    (hslot : slot ∈ ancestors) (hle : slot ≤ s.maxRootInclusive) : s.RootSlot tree slot := by
  have hroot : s.root ∈ s.frozen := h.frozen ((h.rooted _).mpr .refl)
  obtain ⟨r, hr, hrb, hrslot⟩ := ht _ hmax
  obtain ⟨a, ha, hab, rfl⟩ := ht _ hslot
  have hreq : r = s.root := h.unique r hr _ hroot (hrslot.trans h.maxRoot)
  subst hreq
  rcases hab.total hrb with hanc | hanc
  · exact ⟨a, (h.rooted a).mpr hanc, rfl⟩
  · have heq : a = s.root := h.unique a ha _ hroot (le_antisymm (h.maxRoot ▸ hle) hanc.slot_le)
    exact ⟨a, (h.rooted a).mpr (heq ▸ .refl), rfl⟩

theorem Forks.visible_iff {k : Pubkey} {e : Slot × AccountInfo} (he : e ∈ s.slotList k) :
    s.index.Visible (reg.usedAncestors scan.ancestors) (some reg.maxRoot) e.1 ↔
      s.View tree scan reg e.1 := by
  refine or_congr_right (and_congr_right fun _ => ⟨fun hr => h.alive _ hr, h.kept k e he⟩)

theorem Forks.lookup_eq {k : Pubkey} {r : Option (Slot × AccountInfo)}
    (hr : Holds (s.View tree scan reg) (s.Gone k) (s.slotList k) r) :
    s.index.get k (reg.usedAncestors scan.ancestors) (some reg.maxRoot) = r ∨
      s.index.get k (reg.usedAncestors scan.ancestors) (some reg.maxRoot) = none ∧
        ∃ e, r = some e ∧ s.Gone k e := by
  have hnone : Absent (s.View tree scan reg) (s.slotList k) →
      s.index.get k (reg.usedAncestors scan.ancestors) (some reg.maxRoot) = none := by
    intro habsent
    rw [get_eq_none_iff]
    exact fun e he hv => habsent e he ((h.visible_iff he).mp hv)
  cases r with
  | none => exact .inl (hnone hr)
  | some e =>
    rcases hr with hn | ⟨hgone, habsent⟩
    · refine .inl (get_eq_some_of_max (h.nodup k) hn.mem
        ((h.visible_iff hn.mem).mpr hn.visible) fun e' he' hv => ?_)
      exact hn.le e' he' ((h.visible_iff he').mp hv)
    · exact .inr ⟨hnone habsent, e, rfl, hgone⟩

theorem Forks.holds_get (k : Pubkey) :
    Holds (s.View tree scan reg) (s.Gone k) (s.slotList k)
      (s.index.get k (reg.usedAncestors scan.ancestors) (some reg.maxRoot)) := by
  cases hget : s.index.get k (reg.usedAncestors scan.ancestors) (some reg.maxRoot) with
  | none =>
    intro e he hv
    exact (get_eq_none_iff _ _ _ _).mp hget e he ((h.visible_iff he).mpr hv)
  | some e =>
    obtain ⟨hmem, hvis, hle⟩ := get_eq_some hget
    exact .inl ⟨hmem, (h.visible_iff hmem).mp hvis,
      fun e' he' hv => hle e' he' ((h.visible_iff he').mpr hv)⟩

end Forks

/-- What a step has to show for a scan that takes no step itself. -/
theorem ScanOk.mono {tree : BlockTree} {s s' : ScanDb} {scan : Scan}
    (hremoved : scan.Running → scan.bankId ∈ s.removedBankIds → scan.bankId ∈ s'.removedBankIds)
    (htracks : scan.Running → s.Tracks tree scan.bankId scan.ancestors →
      scan.bankId ∈ s'.removedBankIds ∨ s'.Tracks tree scan.bankId scan.ancestors)
    (hwatching : scan.Active → ∀ reg, scan.registration = some reg → s.Watching tree scan reg →
      scan.bankId ∈ s'.removedBankIds ∨ s'.Watching tree scan reg)
    (hfound : ∀ reg, s.Found scan reg → s'.Found scan reg) (h : s.ScanOk tree scan) :
    s'.ScanOk tree scan := by
  have hrun : (∀ ok, scan.phase ≠ .returned ok) → scan.Running := id
  have hactive : scan.Active → (∃ reg, scan.registration = some reg ∧
      (scan.bankId ∈ s.removedBankIds ∨ s.Watching tree scan reg ∧ s.Found scan reg)) →
      ∃ reg, scan.registration = some reg ∧
        (scan.bankId ∈ s'.removedBankIds ∨ s'.Watching tree scan reg ∧ s'.Found scan reg) := by
    rintro hact ⟨reg, hreg, hok⟩
    refine ⟨reg, hreg, ?_⟩
    rcases hok with hr | ⟨hw, hf⟩
    · exact .inl (hremoved hact.running hr)
    · exact (hwatching hact reg hreg hw).imp_right fun hw' => ⟨hw', hfound reg hf⟩
  unfold ScanOk at *
  cases hphase : scan.phase with
  | checked =>
    rw [hphase] at h hrun
    have hrunning := hrun fun _ hc => by cases hc
    exact ⟨h.1, h.2.elim (fun hr => .inl (hremoved hrunning hr)) (htracks hrunning)⟩
  | registering =>
    rw [hphase] at h
    exact hactive (.inl hphase) h
  | scanning =>
    rw [hphase] at h
    exact hactive (.inr hphase) h
  | scanned =>
    rw [hphase] at h hrun
    have hrunning := hrun fun _ hc => by cases hc
    obtain ⟨reg, hreg, hok⟩ := h
    exact ⟨reg, hreg, hok.imp (hremoved hrunning) (hfound reg)⟩
  | returned ok =>
    rw [hphase] at h
    intro hok
    obtain ⟨reg, hreg, hf⟩ := h hok
    exact ⟨reg, hreg, hfound reg hf⟩

structure Changes (tree : BlockTree) (s s' : ScanDb) : Prop where
  maxRoot : s'.maxRootInclusive = s.maxRootInclusive
  removed : s'.removedBankIds = s.removedBankIds
  frozen : s'.frozen = s.frozen
  rooted : s'.rooted = s.rooted
  root : s'.root = s.root
  scans : s'.scans = s.scans
  ongoing : s'.ongoingScanRoots = s.ongoingScanRoots
  minRoot : s'.minOngoingScanRoot = s.minOngoingScanRoot
  passes : ∀ pass' ∈ s'.passes, ∃ pass ∈ s.passes, pass'.proposed = pass.proposed ∧
    pass'.bound = pass.bound ∧ pass'.purgesZeroLamports = pass.purgesZeroLamports
  purged : s.purgedZero ⊆ s'.purgedZero
  nodup : ∀ k, ((s'.slotList k).map Prod.fst).Nodup
  alive : s'.aliveRoots ⊆ s.aliveRoots
  kept : ∀ k, ∀ e ∈ s'.slotList k, e.1 ∈ s.aliveRoots → e.1 ∈ s'.aliveRoots
  sub : ∀ k, ∀ e ∈ s'.slotList k, s.RootSlot tree e.1 → e ∈ s.slotList k
  newer : ∀ k top, s.Horizon top → ∀ e ∈ s'.slotList k, s.RootSlot tree e.1 →
    ∀ e' ∈ s.slotList k, s.RootSlot tree e'.1 → e.1 < e'.1 → e'.1 ≤ top →
      ∃ e'' ∈ s'.slotList k, s.RootSlot tree e''.1 ∧ e.1 < e''.1 ∧ e''.1 ≤ top
  keeps : ∀ scan ∈ s.scans, scan.Active → ∀ reg, scan.registration = some reg →
    s.Watching tree scan reg → ∀ k, Keeps (s.View tree scan reg) (s'.Gone k)
      (s.slotList k) (s'.slotList k)

namespace Changes

variable {tree : BlockTree} {s s' : ScanDb} (hc : Changes tree s s')
include hc

theorem rootSlot (slot : Slot) : s'.RootSlot tree slot ↔ s.RootSlot tree slot := by
  unfold RootSlot
  rw [hc.rooted]

theorem horizon (top : Slot) : s'.Horizon top ↔ s.Horizon top := by
  unfold Horizon
  rw [hc.scans, hc.maxRoot]

theorem forks (h : s.Forks tree) : s'.Forks tree where
  nodup := hc.nodup
  maxRoot := by rw [hc.maxRoot, hc.root, h.maxRoot]
  rooted := by rw [hc.rooted, hc.root]; exact h.rooted
  frozen := by rw [hc.rooted, hc.frozen]; exact h.frozen
  unique := by rw [hc.frozen]; exact h.unique
  alive := fun slot hslot => (hc.rootSlot slot).mpr (h.alive slot (hc.alive hslot))
  kept := fun k e he hroot => by
    have hroot' := (hc.rootSlot e.1).mp hroot
    exact hc.kept k e he (h.kept k e (hc.sub k e he hroot') hroot')

theorem passOk {pass : CleanPass} (h : s.PassOk tree pass) : s'.PassOk tree pass where
  proposed := by rw [hc.maxRoot]; exact h.proposed
  fresh := h.fresh
  bound := fun c hbound top htop => h.bound c hbound top ((hc.horizon top).mp htop)
  candidates := fun c hbound x hx => by
    have hcand := h.candidates c hbound x hx
    refine ⟨fun slot hslot => ?_, fun e he hle hroot => ?_, fun top htop e he hslot => ?_⟩
    · exact (hcand.roots slot hslot).imp_right (hc.rootSlot slot).mpr
    · have hroot' := (hc.rootSlot e.1).mp hroot
      exact hcand.all e (hc.sub _ e he hroot') hle hroot'
    · have htop' := (hc.horizon top).mp htop
      have hroot := (hcand.roots e.1 hslot).2
      rcases hcand.covered top htop' e (hc.sub _ e he hroot) hslot with
        hzero | ⟨e', he', hroot', hlt, hle⟩
      · exact .inl hzero
      · obtain ⟨e'', he'', hroot'', hlt', hle'⟩ :=
          hc.newer _ top htop' e he hroot e' he' hroot' hlt hle
        exact .inr ⟨e'', he'', (hc.rootSlot _).mpr hroot'', hlt', hle'⟩

theorem gone {k : Pubkey} {e : Slot × AccountInfo} (h : s.Gone k e) : s'.Gone k e :=
  ⟨h.1, hc.purged h.2⟩

theorem tracks {b : BankId} {ancestors : Finset Slot} (h : s.Tracks tree b ancestors) :
    s'.Tracks tree b ancestors := by
  unfold Tracks
  rw [hc.frozen]
  exact h

theorem found {scan : Scan} {reg : Registration} (h : s.Found scan reg) : s'.Found scan reg where
  roots := h.roots
  lookups := fun x hx => by
    rcases h.lookups x hx with heq | ⟨hnone, e, he, hgone⟩
    · exact .inl heq
    · exact .inr ⟨hnone, e, he, hc.gone hgone⟩

theorem watching {scan : Scan} {reg : Registration} (hscan : scan ∈ s.scans)
    (hactive : scan.Active) (hreg : scan.registration = some reg)
    (h : s.Watching tree scan reg) : s'.Watching tree scan reg := by
  have hview : s'.View tree scan reg = s.View tree scan reg := by
    funext slot
    unfold View
    rw [propext (hc.rootSlot slot)]
  refine ⟨?_, hc.tracks h.tracks, fun slot hslot hle => ?_, fun k => ?_⟩
  · rw [hc.maxRoot]
    exact h.maxRoot
  · exact (hc.rootSlot slot).mpr (h.rooted slot hslot hle)
  · rw [hview]
    exact (h.holds k).step (hc.keeps scan hscan hactive reg hreg h k) fun _ => hc.gone

theorem scanOk {scan : Scan} (hscan : scan ∈ s.scans) (h : s.ScanOk tree scan) :
    s'.ScanOk tree scan := by
  refine h.mono (fun _ hr => ?_) (fun _ ht => .inr (hc.tracks ht))
    (fun hact reg hreg hw => .inr (hc.watching hscan hact hreg hw)) fun reg => hc.found
  rw [hc.removed]
  exact hr

theorem inv (h : s.Inv tree) : s'.Inv tree where
  forks := hc.forks h.forks
  counted := by rw [hc.ongoing, hc.scans, h.counted]
  minRoot := by rw [hc.minRoot, hc.ongoing, h.minRoot]
  passes := fun pass' hpass' => by
    obtain ⟨pass, hpass, hproposed, hbound, hpurges⟩ := hc.passes pass' hpass'
    have hok := hc.passOk (h.passes pass hpass)
    refine ⟨?_, ?_, ?_, ?_⟩
    · rw [hproposed]; exact hok.proposed
    · rw [hbound, hpurges]; exact hok.fresh
    · rw [hbound]; exact hok.bound
    · rw [hbound, hpurges]; exact hok.candidates
  scans := fun scan hscan => by
    rw [hc.scans] at hscan
    exact hc.scanOk hscan (h.scans scan hscan)

end Changes

section Index
variable {tree : BlockTree} {s : ScanDb} {scan : Scan} {reg : Registration} {k : Pubkey}
  {slot bound : Slot} {j : Nat} {pass : CleanPass}

theorem Watching.frozenSlot (h : s.Watching tree scan reg) (hf : s.Forks tree)
    (hv : s.View tree scan reg slot) : s.FrozenSlot tree slot := by
  rcases hv with hused | ⟨_, hroot⟩
  · have hanc : slot ∈ scan.ancestors := by
      unfold Registration.usedAncestors at hused
      split_ifs at hused with hmax
      · exact hused
      · exact absurd hused (notMem_empty _)
    obtain ⟨a, ha, _, hslot⟩ := h.tracks slot hanc
    exact ⟨a, ha, hslot⟩
  · exact hf.frozenSlot hroot

theorem Watching.rootSlot (h : s.Watching tree scan reg) (hv : s.View tree scan reg slot)
    (hle : slot ≤ reg.maxRoot) : s.RootSlot tree slot := by
  rcases hv with hused | ⟨_, hroot⟩
  · exact h.rooted slot hused hle
  · exact hroot

theorem horizon_of_active (hscan : scan ∈ s.scans) (hactive : scan.Active)
    (hreg : scan.registration = some reg) : s.Horizon reg.maxRoot :=
  .inr ⟨scan, hscan, hactive, reg, hreg, rfl⟩

variable (h : s.Forks tree)
include h

theorem changes_withDb {db : CleanDb} (hmin : db.minOngoingScanRoot = s.minOngoingScanRoot)
    (hnodup : ∀ k, ((db.slotList k).map Prod.fst).Nodup) (halive : db.aliveRoots ⊆ s.aliveRoots)
    (hkept : ∀ k, ∀ e ∈ db.slotList k, e.1 ∈ s.aliveRoots → e.1 ∈ db.aliveRoots)
    (hsame : ∀ k e, s.FrozenSlot tree e.1 → (e ∈ db.slotList k ↔ e ∈ s.slotList k)) :
    Changes tree s { s with toCleanDb := db } where
  maxRoot := rfl
  removed := rfl
  frozen := rfl
  rooted := rfl
  root := rfl
  scans := rfl
  ongoing := rfl
  minRoot := hmin
  passes := fun pass hpass => ⟨pass, hpass, rfl, rfl, rfl⟩
  purged := fun _ hx => hx
  nodup := hnodup
  alive := halive
  kept := hkept
  sub := fun k e he hroot => (hsame k e (h.frozenSlot hroot)).mp he
  newer := fun k _ _ _ _ _ e' he' hroot' hlt hle =>
    ⟨e', (hsame k e' (h.frozenSlot hroot')).mpr he', hroot', hlt, hle⟩
  keeps := fun _ _ _ _ _ hw k =>
    Keeps.of_unseen fun e hv => hsame k e (hw.frozenSlot h hv)

theorem changes_retain {db : CleanDb} {purged : Finset (Pubkey × Slot)} {pass' : CleanPass}
    (k : Pubkey) (p : Slot × AccountInfo → Bool) (hpass : s.passes[j]? = some pass)
    (hsame : pass'.proposed = pass.proposed ∧ pass'.bound = pass.bound ∧
      pass'.purgesZeroLamports = pass.purgesZeroLamports)
    (hlist : ∀ k', db.slotList k' = (s.retainEntries k p).1.slotList k')
    (hroots : db.aliveRoots = s.aliveRoots) (hmin : db.minOngoingScanRoot = s.minOngoingScanRoot)
    (hpurged : s.purgedZero ⊆ purged)
    (hnewer : ∀ top, s.Horizon top → ∀ e ∈ s.slotList k, p e = false → s.RootSlot tree e.1 →
      ∀ e' ∈ s.slotList k, s.RootSlot tree e'.1 → e.1 < e'.1 → e'.1 ≤ top →
        ∃ e'' ∈ s.slotList k, p e'' = false ∧ s.RootSlot tree e''.1 ∧ e.1 < e''.1 ∧ e''.1 ≤ top)
    (hkeeps : ∀ scan ∈ s.scans, scan.Active → ∀ reg, scan.registration = some reg →
      s.Watching tree scan reg →
        Keeps (s.View tree scan reg) (fun e => e.2.isZeroLamport = true ∧ (k, e.1) ∈ purged)
          (s.slotList k) ((s.slotList k).filter (fun e => !p e))) :
    Changes tree s ({ s with toCleanDb := db, purgedZero := purged }.setPass j pass') := by
  have hmem : ∀ k' e, e ∈ db.slotList k' ↔ e ∈ s.slotList k' ∧ ¬(k' = k ∧ p e = true) := by
    intro k' e
    rw [hlist]
    exact mem_retainEntries
  refine ⟨rfl, rfl, rfl, rfl, rfl, rfl, rfl, hmin, fun x hx => ?_, hpurged, fun k' => ?_, ?_,
    fun k' e he hroot => ?_, fun k' e he _ => ((hmem k' e).mp he).1,
    fun k' top htop e he hroot e' he' hroot' hlt hle => ?_,
    fun scan hscan hactive reg hreg hw k' => ?_⟩
  · rcases mem_or_eq_of_mem_set hx with hx | rfl
    · exact ⟨x, hx, rfl, rfl, rfl⟩
    · exact ⟨pass, mem_of_getElem? hpass, hsame⟩
  · change ((db.slotList k').map Prod.fst).Nodup
    rw [hlist, retainEntries_slotList]
    split_ifs with hk
    · exact (h.nodup k).sublist (filter_sublist.map _)
    · exact h.nodup k'
  · exact fun slot hslot => hroots ▸ hslot
  · exact hroots ▸ hroot
  · obtain ⟨hmem', hno⟩ := (hmem k' e).mp he
    by_cases hk : k' = k
    · subst hk
      obtain ⟨e'', he'', hp, hrest⟩ := hnewer top htop e hmem'
        (Bool.eq_false_iff.mpr fun hp => hno ⟨rfl, hp⟩) hroot e' he' hroot' hlt hle
      exact ⟨e'', (hmem _ _).mpr ⟨he'', fun hc => Bool.false_ne_true (hp.symm.trans hc.2)⟩, hrest⟩
    · exact ⟨e', (hmem _ _).mpr ⟨he', fun hc => hk hc.1⟩, hroot', hlt, hle⟩
  · change Keeps _ _ _ (db.slotList k')
    rw [hlist, retainEntries_slotList]
    split_ifs with hk
    · subst hk
      exact hkeeps scan hscan hactive reg hreg hw
    · exact .of_unseen fun _ _ => .rfl

theorem changes_cleanRooted (hpass : s.passes[j]? = some pass) (hbound : pass.bound = some bound)
    (hok : s.PassOk tree pass) : Changes tree s (s.cleanRooted j pass bound k) := by
  have hle := hok.bound bound hbound
  -- an entry of a root that goes has a newer root up to the bound
  have hnewer : ∀ e ∈ s.slotList k, s.RootSlot tree e.1 → s.purgesOlder bound k e = true →
      ∃ e' ∈ s.slotList k, s.purgesOlder bound k e' = false ∧ s.RootSlot tree e'.1 ∧
        e.1 < e'.1 ∧ e'.1 ≤ bound := by
    intro e he hroot hpurge
    obtain ⟨e', he', halive, hle', hlt, hstays⟩ := purgesOlder_newer he (h.kept k e he hroot) hpurge
    exact ⟨e', he', hstays, h.alive _ halive, hlt, hle'⟩
  refine changes_retain h k (s.purgesOlder bound k) hpass ⟨rfl, rfl, rfl⟩ (fun k' => ?_) ?_ ?_
    (fun _ hx => hx) ?_ ?_
  · exact removeIfSlotListEmpty_slotList _ _ _
  · dsimp only [cleanRootedEntries, removeIfSlotListEmpty]
    split_ifs <;> rfl
  · dsimp only [cleanRootedEntries, removeIfSlotListEmpty]
    split_ifs <;> rfl
  · intro top htop e he _ hroot e' he' hroot' hlt hle'
    cases hpurge : s.purgesOlder bound k e' with
    | false => exact ⟨e', he', hpurge, hroot', hlt, hle'⟩
    | true =>
      obtain ⟨e'', he'', hstays, hroot'', hlt', hle''⟩ := hnewer e' he' hroot' hpurge
      exact ⟨e'', he'', hstays, hroot'', hlt.trans hlt', hle''.trans (hle top htop)⟩
  · intro scan hscan hactive reg hreg hw
    have htop := hle _ (horizon_of_active hscan hactive hreg)
    refine .of_outdated (fun e he => (mem_filter.mp he).1) fun e he hv hgone => ?_
    have hpurge : s.purgesOlder bound k e = true := by
      by_contra hno
      exact hgone (mem_filter.mpr ⟨he, by rw [Bool.eq_false_iff.mpr hno]; rfl⟩)
    have hlt := purgesOlder_lt hpurge
    have hroot := hw.rootSlot hv (le_trans (le_of_lt hlt) htop)
    obtain ⟨e', he', _, hroot', hlt', hle'⟩ := hnewer e he hroot hpurge
    exact ⟨e', he', .inr ⟨hle'.trans htop, hroot'⟩, hlt'⟩

theorem changes_purgeKey (hpass : s.passes[j]? = some pass) (hbound : pass.bound = some bound)
    (hok : s.PassOk tree pass) {p : Purge} (hp : (k, p) ∈ pass.purgesZeroLamports)
    {slots : Finset Slot} {s' : ScanDb} (hs' : s.purgeKey j pass k p slots = some s') :
    Changes tree s s' := by
  have hcand := hok.candidates bound hbound _ hp
  unfold purgeKey at hs'
  split_ifs at hs' with hslots
  cases hs'
  obtain ⟨hsub, hleft⟩ := hslots
  -- a rooted version up to the bound that is in the list is purged
  have hall : ∀ e ∈ s.slotList k, e.1 ≤ bound → s.RootSlot tree e.1 → e.1 ∈ slots :=
    fun e he hle hroot => (hleft e (hcand.all e he hle hroot)).resolve_right (not_not_intro he)
  refine changes_retain h k (fun e => decide (e.1 ∈ slots)) hpass ⟨rfl, rfl, rfl⟩
    (fun k' => ?_) ?_ ?_ subset_union_left ?_ ?_
  · exact removeIfSlotListEmpty_slotList _ _ _
  · dsimp only [removeIfSlotListEmpty]
    split_ifs <;> rfl
  · dsimp only [removeIfSlotListEmpty]
    split_ifs <;> rfl
  · intro top _ e he hstays hroot e' he' hroot' hlt hle
    refine ⟨e', he', decide_eq_false fun hmem => ?_, hroot', hlt, hle⟩
    have hle' := (hcand.roots e'.1 (hsub hmem)).1
    exact of_decide_eq_false hstays (hall e he (le_trans (le_of_lt hlt) hle') hroot)
  · intro scan hscan hactive reg hreg hw
    have htop := hok.bound bound hbound _ (horizon_of_active hscan hactive hreg)
    have hgoes : ∀ e ∈ s.slotList k, e ∉ (s.slotList k).filter (fun e => !decide (e.1 ∈ slots)) →
        e.1 ∈ slots := by
      intro e he hno
      by_contra hmem
      exact hno (mem_filter.mpr ⟨he, by rw [decide_eq_false hmem]; rfl⟩)
    refine .of_purged (fun e he => (mem_filter.mp he).1) (fun e he _ hno => ?_)
      (fun e he _ hno e' he' hv' => ?_)
    · have hmem := hgoes e he hno
      rcases hcand.covered _ (horizon_of_active hscan hactive hreg) e he (hsub hmem) with
        hzero | ⟨e', he', hroot', hlt, hle⟩
      · exact .inl ⟨hzero, mem_union_right _ (mem_image_of_mem _ hmem)⟩
      · exact .inr ⟨e', he', .inr ⟨hle, hroot'⟩, hlt⟩
    · by_contra hlt
      obtain ⟨hin, hstays⟩ := mem_filter.mp he'
      have hle : e'.1 ≤ bound :=
        le_trans (not_lt.mp hlt) (hcand.roots e.1 (hsub (hgoes e he hno))).1
      have hmem := hall e' hin hle (hw.rootSlot hv' (hle.trans htop))
      rw [decide_eq_true hmem] at hstays
      cases hstays

end Index

variable {tree : BlockTree} {s s' : ScanDb} {b : BankId}

/-- A step of the bank forks that leaves the slot lists and the threads as they are. -/
structure Moves (tree : BlockTree) (s s' : ScanDb) : Prop where
  slotList : s'.slotList = s.slotList
  scans : s'.scans = s.scans
  passes : s'.passes = s.passes
  ongoing : s'.ongoingScanRoots = s.ongoingScanRoots
  minRoot : s'.minOngoingScanRoot = s.minOngoingScanRoot
  purged : s'.purgedZero = s.purgedZero
  maxRoot : s.maxRootInclusive ≤ s'.maxRootInclusive
  rootSlot : ∀ slot ≤ s.maxRootInclusive, s'.RootSlot tree slot ↔ s.RootSlot tree slot
  forks : s'.Forks tree
  removed : ∀ scan ∈ s.scans, scan.Running → scan.bankId ∈ s.removedBankIds →
    scan.bankId ∈ s'.removedBankIds
  tracks : ∀ scan ∈ s.scans, scan.Running → s.Tracks tree scan.bankId scan.ancestors →
    scan.bankId ∈ s'.removedBankIds ∨ s'.Tracks tree scan.bankId scan.ancestors

namespace Moves

variable (hm : Moves tree s s')
include hm

theorem found {scan : Scan} {reg : Registration} (h : s.Found scan reg) : s'.Found scan reg := by
  refine ⟨h.roots, fun x hx => ?_⟩
  unfold Gone
  rw [hm.purged]
  exact h.lookups x hx

theorem watching {scan : Scan} {reg : Registration} (hscan : scan ∈ s.scans)
    (hact : scan.Active) (h : s.Watching tree scan reg) :
    scan.bankId ∈ s'.removedBankIds ∨ s'.Watching tree scan reg := by
  have hroot : ∀ slot ≤ reg.maxRoot, s'.RootSlot tree slot ↔ s.RootSlot tree slot :=
    fun slot hle => hm.rootSlot slot (hle.trans h.maxRoot)
  have hview : s'.View tree scan reg = s.View tree scan reg := by
    funext slot
    exact propext (or_congr_right (and_congr_right (hroot slot)))
  refine (hm.tracks scan hscan hact.running h.tracks).imp_right fun htracks =>
    ⟨h.maxRoot.trans hm.maxRoot, htracks, fun slot hslot hle => ?_, fun k => ?_⟩
  · exact (hroot slot hle).mpr (h.rooted slot hslot hle)
  · rw [hview, hm.slotList]
    unfold Gone
    rw [hm.purged]
    exact h.holds k

theorem scanOk {scan : Scan} (hscan : scan ∈ s.scans) (h : s.ScanOk tree scan) :
    s'.ScanOk tree scan :=
  h.mono (hm.removed scan hscan) (hm.tracks scan hscan)
    (fun hact _ _ hw => hm.watching hscan hact hw) fun _ => hm.found

theorem horizon {top : Slot} (h : s'.Horizon top) : ∃ top', s.Horizon top' ∧ top' ≤ top := by
  rcases h with rfl | ⟨scan, hscan, hactive⟩
  · exact ⟨_, .inl rfl, hm.maxRoot⟩
  · exact ⟨top, .inr ⟨scan, hm.scans ▸ hscan, hactive⟩, le_rfl⟩

theorem passOk (hf : s.Forks tree) {pass : CleanPass} (h : s.PassOk tree pass) :
    s'.PassOk tree pass where
  proposed := h.proposed.trans hm.maxRoot
  fresh := h.fresh
  bound := fun c hbound top htop => by
    obtain ⟨top', htop', hle⟩ := hm.horizon htop
    exact (h.bound c hbound top' htop').trans hle
  candidates := fun c hbound x hx => by
    have hcand := h.candidates c hbound x hx
    have hmax : c ≤ s.maxRootInclusive := h.bound c hbound _ (.inl rfl)
    refine ⟨fun slot hslot => ?_, fun e he hle hroot => ?_, fun top htop e he hslot => ?_⟩
    · obtain ⟨hle, hroot⟩ := hcand.roots slot hslot
      exact ⟨hle, (hm.rootSlot slot (hle.trans hmax)).mpr hroot⟩
    · rw [hm.slotList] at he
      exact hcand.all e he hle ((hm.rootSlot _ (hle.trans hmax)).mp hroot)
    · obtain ⟨top', htop', hle⟩ := hm.horizon htop
      rw [hm.slotList] at he ⊢
      rcases hcand.covered top' htop' e he hslot with hzero | ⟨e', he', hroot, hlt, hle'⟩
      · exact .inl hzero
      · exact .inr ⟨e', he', (hm.rootSlot _ (hf.le_maxRoot hroot)).mpr hroot, hlt, hle'.trans hle⟩

theorem inv (h : s.Inv tree) : s'.Inv tree where
  forks := hm.forks
  counted := by rw [hm.ongoing, hm.scans, h.counted]
  minRoot := by rw [hm.minRoot, hm.ongoing, h.minRoot]
  passes := fun pass hpass => by
    rw [hm.passes] at hpass
    exact hm.passOk h.forks (h.passes pass hpass)
  scans := fun scan hscan => by
    rw [hm.scans] at hscan
    exact hm.scanOk hscan (h.scans scan hscan)

end Moves

variable (h : s.Forks tree)
include h

theorem moves_freeze (hok : s.Admissible tree (.freeze b)) :
    Moves tree s { s with frozen := insert b s.frozen } := by
  refine ⟨rfl, rfl, rfl, rfl, rfl, rfl, le_rfl, fun _ _ => .rfl, ?_, fun _ _ _ hr => hr,
    fun scan _ _ ht => .inr fun slot hslot => ?_⟩
  · refine ⟨h.nodup, h.maxRoot, h.rooted, h.frozen.trans (subset_insert _ _), ?_, h.alive, h.kept⟩
    intro x hx y hy hxy
    rcases mem_insert.mp hx with hxb | hx' <;>
      rcases mem_insert.mp hy with hyb | hy'
    · exact hxb.trans hyb.symm
    · exact absurd ⟨y, hy', by rw [← hxy, hxb]⟩ hok.1
    · exact absurd ⟨x, hx', by rw [hxy, hyb]⟩ hok.1
    · exact h.unique x hx' y hy' hxy
  · obtain ⟨a, ha, hrest⟩ := ht slot hslot
    exact ⟨a, mem_insert_of_mem ha, hrest⟩

theorem moves_addRoot (hok : s.Admissible tree (.addRoot b)) (hs' : s.makeRoot tree b = some s') :
    Moves tree s s' := by
  have hlt : s.maxRootInclusive < tree.slot b := by
    rw [h.maxRoot]
    exact tree.parent_lt b _ hok.2
  unfold makeRoot at hs'
  rw [if_pos (le_of_lt hlt), Option.some.injEq] at hs'
  subst hs'
  have hnew : ∀ slot, (∃ x ∈ insert b s.rooted, tree.slot x = slot) ↔
      slot = tree.slot b ∨ s.RootSlot tree slot := by
    intro slot
    rw [exists_mem_insert]
    exact or_congr_left eq_comm
  refine ⟨rfl, rfl, rfl, rfl, rfl, rfl, le_of_lt hlt, fun slot hle => ?_, ?_,
    fun _ _ _ hr => hr, fun _ _ _ ht => .inr ht⟩
  · exact (hnew slot).trans (or_iff_right (ne_of_lt (lt_of_le_of_lt hle hlt)))
  · refine ⟨h.nodup, rfl, fun x => ?_, ?_, h.unique, fun slot hslot => ?_, fun k e he hroot => ?_⟩
    · dsimp only
      rw [mem_insert, h.rooted]
      constructor
      · rintro (rfl | hanc)
        · exact .refl
        · exact .head hok.2 hanc
      · intro hanc
        rcases Relation.ReflTransGen.cases_head hanc with heq | ⟨y, hy, hanc'⟩
        · exact .inl heq.symm
        · rw [hok.2, Option.some.injEq] at hy
          exact .inr (hy ▸ hanc')
    · exact insert_subset hok.1 h.frozen
    · rcases mem_insert.mp hslot with rfl | hslot
      · exact (hnew _).mpr (.inl rfl)
      · exact (hnew _).mpr (.inr (h.alive slot hslot))
    · rcases (hnew _).mp hroot with heq | hroot
      · exact mem_insert.mpr (.inl heq)
      · exact mem_insert_of_mem (h.kept k e he hroot)

theorem moves_withRemovedBankIds {ids : Finset BankId}
    (hids : ∀ scan ∈ s.scans, scan.Running → scan.bankId ∈ s.removedBankIds → scan.bankId ∈ ids) :
    Moves tree s { s with removedBankIds := ids } :=
  ⟨rfl, rfl, rfl, rfl, rfl, rfl, le_rfl, fun _ _ => .rfl,
    ⟨h.nodup, h.maxRoot, h.rooted, h.frozen, h.unique, h.alive, h.kept⟩, hids,
    fun _ _ _ ht => .inr ht⟩

theorem moves_giveUp (hok : s.Admissible tree (.giveUp b)) :
    Moves tree s { s with frozen := s.frozen.erase b } := by
  refine ⟨rfl, rfl, rfl, rfl, rfl, rfl, le_rfl, fun _ _ => .rfl, ?_, fun _ _ _ hr => hr,
    fun scan hscan hrun ht => ?_⟩
  · refine ⟨h.nodup, h.maxRoot, h.rooted, fun x hx => ?_, fun x hx y hy => ?_, h.alive, h.kept⟩
    · exact mem_erase.mpr ⟨fun heq => hok.1 (heq ▸ hx), h.frozen hx⟩
    · exact h.unique x (mem_of_mem_erase hx) y (mem_of_mem_erase hy)
  · by_cases hr : scan.bankId ∈ s.removedBankIds
    · exact .inl hr
    · refine .inr fun slot hslot => ?_
      obtain ⟨a, ha, hanc, haslot⟩ := ht slot hslot
      refine ⟨a, mem_erase.mpr ⟨fun heq => ?_, ha⟩, hanc, haslot⟩
      exact hr (hok.2 scan hscan hrun (heq ▸ hanc))

end ScanDb
end Hypergrid
