import Neug.Transaction.ReadSnapshotLeaseSteps

/-! # Views and snapshots fit together

The updates that have been published form a history.  The current slot holds the graph
with all of them.  Every slot holds the graph of some part of the history, or one that
has not been published.  A published view names, by its generation, the part of the
history whose updates are not later than its timestamp.  These facts concern the two
components together; this file states them and proves that steps of the components keep
them.
-/

namespace Neug.Transaction

open Function List
open Library Storage Version

namespace SystemState

variable {Tid : Type*} {n : Nat} {G : Type*}

variable (s : SystemState Tid n G)

def latest : Nat := latestTag s.first s.history

def graph : G := build s.origin s.history

def Recorded (data : SnapshotData G) : Prop :=
  ∃ l, l <:+ s.history ∧ latestTag s.first l = data.snapshotGeneration ∧
    build s.origin l = data.graph

def Fresh (generation : Nat) : Prop :=
  ∀ l, l <:+ s.history → latestTag s.first l ≠ generation

/-- The view is a view of the history: its timestamp is readable, and its generation
is that of the last update up to the timestamp. -/
structure ViewFits (s : SystemState Tid n G) (view : PublishedReadView) : Prop where
  readable : view.visibilityTs ≤ s.vm.clock.readTs
  generation : latestTag s.first (asOf s.history view.visibilityTs) =
    view.snapshotGeneration

def Before (ts : Nat) : Prop := ∀ v ∈ s.history, v.stamp < ts

structure Shared (s : SystemState Tid n G) : Prop where
  increasing : Version.Increasing s.first s.history
  latest_le : s.latest ≤ s.store.store.lastReservedGeneration
  stamp : ∀ v ∈ s.history, v.stamp ≤ s.vm.clock.readTs ∨
    ∃ t, (s.vm.threads t).pc.ts.exclusiveTs = some v.stamp
  slot : ∀ i data, (s.store.store.slots i).data = some data →
    s.Recorded data ∨ s.Fresh data.snapshotGeneration
  carried : ∀ t data, (s.store.threads t).carried = some data → s.Fresh data.snapshotGeneration
  current : ∃ data, (s.store.store.slots s.store.store.curSlotIndex).data = some data ∧
    data.snapshotGeneration = s.latest ∧ data.graph = s.graph
  views : ∀ view ∈ s.views, s.ViewFits view
  published : s.vm.clock.publishedView ∈ s.views
  installed : s.vm.clock.installedGeneration = s.latest ∨
    ∃ t v rest, s.history = v :: rest ∧ (s.vm.threads t).pc.ts = .holding true v.stamp

structure Parts [Fintype Tid] (s : SystemState Tid n G) : Prop where
  vm : s.vm.Inv
  view : s.vm.ts.ViewInv
  store : s.store.Inv
  generations : s.store.GenInv

/-- Where a session is inside the components at each point of its program, and what it
knows there. -/
def SessionOk (vmPc : VmPc) (storePc : StorePc n G) : SessionPc n G → Prop
  | .outside => vmPc.Other ∧ (∀ ts, vmPc.ts.exclusiveTs = some ts → s.Before ts) ∧
      storePc.Guarding
  | .acquiring => vmPc.Acquiring ∧ (∀ view, vmPc = .reading view → view ∈ s.views) ∧
      storePc = .idle
  | .pinning view => vmPc = .reading view ∧ view ∈ s.views ∧ storePc.Pinning
  | .comparing view i => vmPc = .reading view ∧ view ∈ s.views ∧ storePc = .pinReturned i
  | .leased view i => vmPc = .reading view ∧ view ∈ s.views ∧ storePc = .pinReturned i ∧
      (s.store.store.slots i).snapshotGeneration = view.snapshotGeneration
  | .unpinning _ => (∃ view, vmPc = .reading view) ∧ storePc.Releasing
  | .leaving _ => vmPc.Leaving ∧ storePc = .idle
  | .beginning => vmPc.Beginning ∧ (∀ ts, vmPc.ts.exclusiveTs = some ts → s.Before ts) ∧
      storePc = .idle
  | .clonePin ts => vmPc = .updating ts false ∧ s.Before ts ∧ storePc.Pinning ∧
      ∀ i, storePc = .pinReturned i → i = s.store.store.curSlotIndex
  | .cloneRead ts i => vmPc = .updating ts false ∧ s.Before ts ∧ storePc = .pinReturned i ∧
      i = s.store.store.curSlotIndex
  | .cloneUnpin ts base => vmPc = .updating ts false ∧ s.Before ts ∧ storePc.Releasing ∧
      base = s.graph
  | .executing ts base _ => vmPc = .updating ts false ∧ s.Before ts ∧ storePc = .idle ∧
      base = s.graph
  | .preparing ts base change => vmPc = .updating ts false ∧ s.Before ts ∧
      StorePc.Preparing s.store.store (change base) s.latest storePc ∧ base = s.graph
  | .prepared ts base change i => vmPc = .updating ts false ∧ s.Before ts ∧
      storePc = .prepareReturned i ∧
      StorePc.Filled s.store.store (change base) s.latest i ∧ base = s.graph
  | .committing ts base change i => (vmPc = .updateBegin ts ∨ ∃ b, vmPc = .updating ts b) ∧
      s.Before ts ∧ storePc = .prepareReturned i ∧
      StorePc.Filled s.store.store (change base) s.latest i ∧ base = s.graph
  | .publishing ts base change i => vmPc = .updating ts true ∧ s.Before ts ∧
      (storePc = .publish i ∨ ∃ g, storePc = .publishSwap i g ∧
        g = (s.store.store.slots i).snapshotGeneration) ∧
      StorePc.Filled s.store.store (change base) s.latest i ∧ base = s.graph
  | .published ts => vmPc = .updating ts true ∧ storePc.Publishing s.latest ∧
      ∃ v rest, s.history = v :: rest ∧ v.stamp = ts
  | .discarding ts => (∃ b, vmPc = .updating ts b) ∧ s.Before ts ∧ storePc.Releasing
  | .finishing => (vmPc.Finishing ∨ ∃ ts, vmPc = .updateInstall ts s.latest) ∧ storePc = .idle

structure Inv [Fintype Tid] (s : SystemState Tid n G) : Prop where
  parts : s.Parts
  shared : s.Shared
  session : ∀ t, s.SessionOk (s.vm.threads t).pc (s.store.threads t) (s.sessions t)

/-! ### Histories and other sessions -/

section Others

variable {s s' : SystemState Tid n G} {vmPc : VmPc} {storePc : StorePc n G} {pc : SessionPc n G}
  {g : Nat}

/-- A generation above the last reserved one is fresh. -/
theorem Shared.fresh_of_lt (h : s.Shared) (hg : s.store.store.lastReservedGeneration < g) :
    s.Fresh g := by
  intro l hl heq
  have hle := h.increasing.latestTag_le_of_suffix hl
  have hlatest := h.latest_le
  unfold latest at hlatest
  omega

def withStore (s : SystemState Tid n G) (store' : StoreState Tid n G) : SystemState Tid n G :=
  { s with store := store' }

theorem Recorded.record {data : SnapshotData G} (h : s.Recorded data) (v : Version G) :
    (s.record v).Recorded data := by
  obtain ⟨l, hl, hrest⟩ := h
  exact ⟨l, hl.trans (suffix_cons _ _), hrest⟩

theorem Fresh.record (h : s.Fresh g) {v : Version G} (hv : v.tag ≠ g) : (s.record v).Fresh g := by
  intro l hl
  rcases suffix_cons_iff.mp hl with rfl | hl
  · exact hv
  · exact h l hl

/-- A view does not see an update with a later timestamp. -/
theorem ViewFits.record {store' : StoreState Tid n G} {view : PublishedReadView}
    (h : s.ViewFits view) {v : Version G}
    (hv : s.vm.clock.readTs < v.stamp) : ((s.withStore store').record v).ViewFits view := by
  refine ⟨h.readable, ?_⟩
  change latestTag s.first (asOf (v :: s.history) view.visibilityTs) = _
  rw [asOf_cons_of_lt (Nat.lt_of_le_of_lt h.readable hv)]
  exact h.generation

/-- No session resets the timeline. -/
theorem SessionOk.ts_ne_resetting (h : s.SessionOk vmPc storePc pc) (ts : Nat) (rpc : ResetPc) :
    vmPc.ts ≠ .resetting ts rpc := by
  intro hts
  obtain rfl : vmPc = .resetting ts rpc := by
    cases vmPc <;> simp only [VmPc.ts, reduceCtorEq, TsPc.resetting.injEq] at hts
    case threw e => cases e <;> cases hts
    case resetting => rw [hts.1, hts.2]
  cases pc with
  | outside | leaving | beginning | acquiring => exact h.1.elim
  | unpinning again =>
    obtain ⟨⟨view, hview⟩, -⟩ := h
    cases hview
  | committing ts base change i =>
    rcases h.1 with hpc | ⟨b, hpc⟩ <;> cases hpc
  | discarding ts =>
    obtain ⟨⟨b, hpc⟩, -⟩ := h
    cases hpc
  | finishing =>
    rcases h.1 with hpc | ⟨ts, hpc⟩
    · exact hpc.elim
    · cases hpc
  | pinning | comparing | leased | clonePin | cloneRead | cloneUnpin | executing | preparing
  | prepared | publishing | published => cases h.1

/-- What a session knows stays true when another one moves: views are only added, the
slot it pins or owns is its own, and nobody else publishes while it updates. -/
theorem SessionOk.stable (h : s.SessionOk vmPc storePc pc)
    (hviews : ∀ view ∈ s.views, view ∈ s'.views)
    (hdata : ∀ i, storePc.pinned = some i ∨ storePc.owned = some i →
      (s'.store.store.slots i).data = (s.store.store.slots i).data)
    (hwriter : vmPc.ts.Exclusive → s'.store.store.curSlotIndex = s.store.store.curSlotIndex ∧
      s'.history = s.history ∧ s'.latest = s.latest ∧ s'.graph = s.graph) :
    s'.SessionOk vmPc storePc pc := by
  have hkept : ∀ i graph, storePc.pinned = some i ∨ storePc.owned = some i →
      StorePc.Filled s.store.store graph s.latest i → vmPc.ts.Exclusive →
      StorePc.Filled s'.store.store graph s'.latest i := by
    intro i graph hi hfilled hexcl
    rw [(hwriter hexcl).2.2.1]
    exact hfilled.congr (hdata i hi)
  have hbefore : vmPc.ts.Exclusive → ∀ {ts}, s.Before ts → s'.Before ts := by
    intro hexcl ts hts
    unfold Before
    rw [(hwriter hexcl).2.1]
    exact hts
  cases pc with
  | unpinning | leaving => exact h
  | outside | beginning =>
    obtain ⟨hvm, hts, hstore⟩ := h
    refine ⟨hvm, fun ts hexcl => ?_, hstore⟩
    exact hbefore (TsPc.exclusive_of_exclusiveTs hexcl) (hts ts hexcl)
  | acquiring => exact ⟨h.1, fun view hview => hviews view (h.2.1 view hview), h.2.2⟩
  | pinning | comparing => exact ⟨h.1, hviews _ h.2.1, h.2.2⟩
  | leased view i =>
    obtain ⟨hvm, hview, rfl, heq⟩ := h
    refine ⟨hvm, hviews _ hview, rfl, ?_⟩
    rwa [SnapshotSlot.snapshotGeneration, hdata i (.inl rfl)]
  | clonePin | cloneRead | cloneUnpin | executing | published =>
    obtain ⟨rfl, h⟩ := h
    obtain ⟨hcur, hhistory, hlatest, hgraph⟩ := hwriter rfl
    refine ⟨rfl, ?_⟩
    simpa only [Before, hcur, hhistory, hlatest, hgraph] using h
  | preparing ts base change =>
    obtain ⟨rfl, hts, hstore, hbase⟩ := h
    obtain ⟨-, -, hlatest, hgraph⟩ := hwriter rfl
    refine ⟨rfl, hbefore rfl hts, ?_, hbase.trans hgraph.symm⟩
    cases storePc with
    | prepareRelease i => exact hkept i _ (.inr rfl) hstore rfl
    | prepareReturned i => exact hkept i _ (.inl rfl) hstore rfl
    | prepareGuard | prepareFill => rwa [hlatest]
    | _ => exact hstore
  | prepared ts base change i =>
    obtain ⟨rfl, hts, rfl, hfilled, hbase⟩ := h
    exact ⟨rfl, hbefore rfl hts, rfl, hkept i _ (.inl rfl) hfilled rfl,
      hbase.trans (hwriter rfl).2.2.2.symm⟩
  | committing ts base change i =>
    obtain ⟨hvm, hts, rfl, hfilled, hbase⟩ := h
    have hexcl : vmPc.ts.Exclusive := by
      rcases hvm with rfl | ⟨b, rfl⟩ <;> rfl
    exact ⟨hvm, hbefore hexcl hts, rfl, hkept i _ (.inl rfl) hfilled hexcl,
      hbase.trans (hwriter hexcl).2.2.2.symm⟩
  | publishing ts base change i =>
    obtain ⟨rfl, hts, hstore, hfilled, hbase⟩ := h
    have hpinned : storePc.pinned = some i := by
      rcases hstore with rfl | ⟨g, rfl, -⟩ <;> rfl
    refine ⟨rfl, hbefore rfl hts, ?_, hkept i _ (.inl hpinned) hfilled rfl,
      hbase.trans (hwriter rfl).2.2.2.symm⟩
    rwa [SnapshotSlot.snapshotGeneration, hdata i (.inl hpinned)]
  | discarding ts =>
    obtain ⟨⟨b, rfl⟩, hts, hstore⟩ := h
    exact ⟨⟨b, rfl⟩, hbefore rfl hts, hstore⟩
  | finishing =>
    obtain ⟨hvm | ⟨ts, rfl⟩, hstore⟩ := h
    · exact ⟨.inl hvm, hstore⟩
    · exact ⟨.inr ⟨ts, by rw [(hwriter rfl).2.2.1]⟩, hstore⟩

end Others

/-! ### Steps of the components -/

section Moves

variable [Fintype Tid]

structure Core (s : SystemState Tid n G) (t : Tid) : Prop where
  parts : s.Parts
  shared : s.Shared
  others : ∀ u, u ≠ t → s.SessionOk (s.vm.threads u).pc (s.store.threads u) (s.sessions u)

theorem Inv.core {s : SystemState Tid n G} (h : s.Inv) (t : Tid) : s.Core t :=
  ⟨h.parts, h.shared, fun u _ => h.session u⟩

variable {s : SystemState Tid n G} {t u : Tid} {ts g : Nat}

theorem Core.inv (h : s.Core t)
    (hself : s.SessionOk (s.vm.threads t).pc (s.store.threads t) (s.sessions t)) : s.Inv := by
  exact ⟨h.parts, h.shared, (and_forall_ne t).mp ⟨hself, h.others⟩⟩

/-- While a thread holds an exclusive timestamp, no other one is at work on a timestamp. -/
theorem Core.alone (h : s.Core t) {w : Tid} (hw : (s.vm.threads w).pc.ts.Exclusive)
    (hu : (s.vm.threads u).pc.ts.Active) : u = w := by
  by_contra hne
  exact h.parts.vm.ts.exclusive w hw u hne hu

/-- Whoever publishes a view finds the history readable and its generation installed. -/
theorem Core.view_of_publish (h : s.Core t) {readTs : Nat}
    (hviewing : (s.vm.threads u).pc.ts.Viewing) (hread : s.vm.clock.readTs ≤ readTs)
    (hown : ∀ ts, (s.vm.threads u).pc.ts.exclusiveTs = some ts → ts ≤ readTs) :
    latestTag s.first (asOf s.history readTs) = s.vm.clock.installedGeneration := by
  have hstamps : ∀ v ∈ s.history, v.stamp ≤ readTs := by
    intro v hv
    rcases h.shared.stamp v hv with hle | ⟨w, hw⟩
    · exact Nat.le_trans hle hread
    · obtain rfl := h.alone (TsPc.exclusive_of_exclusiveTs hw) hviewing.active
      exact hown _ hw
  rw [asOf_eq_self hstamps]
  rcases h.shared.installed with heq | ⟨w, v, rest, -, hholding⟩
  · exact heq.symm
  · obtain rfl : u = w := h.alone (by rw [hholding]; rfl) hviewing.active
    rw [hholding] at hviewing
    exact hviewing.elim

/-- The generation of the last update is installed when a later timestamp is held. -/
theorem Core.installed_of_before (h : s.Core t) (hbefore : s.Before ts)
    (hholding : (s.vm.threads t).pc.ts = .holding true ts) :
    s.vm.clock.installedGeneration = s.latest := by
  rcases h.shared.installed with heq | ⟨u, v, rest, hhistory, hu⟩
  · exact heq
  · obtain rfl : u = t := h.alone (by rw [hholding]; rfl) (by rw [hu]; trivial)
    rw [hholding] at hu
    have hlt := hbefore v (by rw [hhistory]; exact mem_cons_self)
    cases hu
    exact absurd hlt (Nat.lt_irrefl _)

variable [DecidableEq Tid]

variable {choice : StoreChoice n G} {store' : StoreState Tid n G} {vm' : VmState Tid}

omit [Fintype Tid] in
theorem vm_next_threads {vm : VmState Tid} {choice : VmChoice} (h : vm.next t choice = some vm') :
    (∀ u, u ≠ t → vm'.threads u = vm.threads u) ∧
      VmMove vm.word vm.clock t (vm.threads t) choice vm'.word vm'.clock (vm'.threads t) := by
  obtain ⟨⟨word', clock', l'⟩, hmove, rfl⟩ := Option.map_eq_some_iff.mp h
  refine ⟨fun u hu => update_of_ne hu .., ?_⟩
  dsimp only
  rw [update_self]
  exact vmStep_move hmove

/-- The reader counter of the gate has room for the thread. -/
def Room (s : SystemState Tid n G) (t : Tid) : Prop :=
  (s.vm.threads t).gate.pc.Counting →
    OperationGateWord.readers s.vm.word < OperationGateWord.kMaxReaderCount

/-- An exclusive timestamp that has just been reserved is later than every update. -/
theorem Core.before_of_reserved (h : s.Core t) {choice : VmChoice}
    (hnext : s.vm.next t choice = some vm') (hroom : s.Room t)
    (hts : (vm'.threads t).pc.ts.exclusiveTs = some ts) :
    (s.vm.threads t).pc.ts.exclusiveTs = some ts ∨ s.Before ts := by
  have hstep : s.vm.Step vm' := ⟨t, choice, hroom, hnext⟩
  have hinv' := h.parts.vm.step hstep
  rcases h.parts.vm.ts_step hstep with hsame | hmove
  · left
    change (s.vm.ts.threads t).exclusiveTs = _
    rw [← hsame]
    exact hts
  · rcases hmove.exclusiveTs_cases hts with hold | ⟨hexcl, hnone, hpending, hread⟩
    · exact .inl hold
    · refine .inr fun v hv => ?_
      have hlt := (hinv'.ts.outstanding_bounds (hinv'.ts.outstanding_of_pending hpending)).1
      rw [hread] at hlt
      rcases h.shared.stamp v hv with hle | ⟨u, hu⟩
      · exact Nat.lt_of_le_of_lt hle hlt
      · obtain rfl : u = t := h.alone hexcl (TsPc.exclusive_of_exclusiveTs hu).active
        rw [show (s.vm.threads u).pc.ts.exclusiveTs = none from hnone] at hu
        cases hu

def withVm (s : SystemState Tid n G) (vm' : VmState Tid) : SystemState Tid n G :=
  { s with vm := vm', views := vm'.clock.publishedView :: s.views }

/-- A step of the version manager.  A thread that stops holding its exclusive timestamp
must have installed the generation of the last update. -/
theorem Core.vmMove (h : s.Core t) {choice : VmChoice} (hnext : s.vm.next t choice = some vm')
    (hroom : s.Room t)
    (hreset : ∀ ts pc, (s.vm.threads t).pc.ts ≠ .resetting ts pc)
    (hreset' : ∀ ts pc, (vm'.threads t).pc.ts ≠ .resetting ts pc)
    (hinstall : ∀ ts, (s.vm.threads t).pc.ts = .holding true ts →
      (vm'.threads t).pc.ts ≠ .holding true ts → vm'.clock.installedGeneration = s.latest) :
    (s.withVm vm').Core t := by
  have hstep : s.vm.Step vm' := ⟨t, choice, hroom, hnext⟩
  have hother := (vm_next_threads hnext).1
  have hresets : ∀ u ts pc, s.vm.ts.threads u ≠ .resetting ts pc :=
    (and_forall_ne t).mp ⟨hreset, fun u hut => (h.others u hut).ts_ne_resetting⟩
  have hresets' : ∀ u ts pc, vm'.ts.threads u ≠ .resetting ts pc := by
    refine (and_forall_ne t).mp ⟨hreset', fun u hut ts pc => ?_⟩
    change (vm'.threads u).pc.ts ≠ _
    rw [hother u hut]
    exact hresets u ts pc
  obtain ⟨hviewInv, heffect⟩ : vm'.ts.ViewInv ∧ TsState.ViewEffect s.vm.ts vm'.ts := by
    rcases h.parts.vm.ts_step hstep with hsame | hts
    · rw [hsame]
      exact ⟨h.parts.view, .refl _⟩
    · exact ⟨h.parts.view.step h.parts.vm.ts hts hresets,
        hts.viewEffect h.parts.view h.parts.vm.ts hresets hresets'⟩
  refine ⟨⟨h.parts.vm.step hstep, hviewInv, h.parts.store, h.parts.generations⟩, ?_, ?_⟩
  · refine ⟨h.shared.increasing, h.shared.latest_le, ?_, h.shared.slot, h.shared.carried,
      h.shared.current, ?_, mem_cons_self, ?_⟩
    · intro v hv
      rcases h.shared.stamp v hv with hle | ⟨u, hu⟩
      · exact .inl (Nat.le_trans hle heffect.read_le)
      · rcases heffect.exclusive u _ hu with hkept | hle
        · exact .inr ⟨u, hkept⟩
        · exact .inl hle
    · have hold : ∀ view ∈ s.views, (s.withVm vm').ViewFits view := by
        intro view hview
        obtain ⟨hle, hgeneration⟩ := h.shared.views view hview
        exact ⟨Nat.le_trans hle heffect.read_le, hgeneration⟩
      intro view hview
      rcases mem_cons.mp hview with rfl | hview
      · rcases heffect.published with hsame | ⟨hview, hinstalled, u, hviewing, hown⟩
        · exact hold _ (hsame ▸ h.shared.published)
        · change (s.withVm vm').ViewFits vm'.ts.clock.publishedView
          rw [hview]
          refine ⟨Nat.le_refl _, ?_⟩
          exact (h.view_of_publish hviewing heffect.read_le hown).trans hinstalled.symm
      · exact hold view hview
    · have hmoved : ∀ u ts, (s.vm.threads u).pc.ts = .holding true ts →
          (vm'.threads u).pc.ts ≠ .holding true ts →
          vm'.clock.installedGeneration = s.latest := by
        refine (and_forall_ne t).mp ⟨hinstall, fun u hut ts hu hne => ?_⟩
        rw [hother u hut] at hne
        exact absurd hu hne
      rcases heffect.installed with hsame | ⟨u, ts, hu, hu'⟩
      · rcases h.shared.installed with heq | ⟨u, v, rest, hhistory, hholding⟩
        · exact .inl (Eq.trans hsame heq)
        · by_cases hkept : (vm'.threads u).pc.ts = .holding true v.stamp
          · exact .inr ⟨u, v, rest, hhistory, hkept⟩
          · exact .inl (hmoved u _ hholding hkept)
      · refine .inl (hmoved u ts hu fun heq => ?_)
        rw [show (vm'.threads u).pc.ts = _ from hu'] at heq
        cases heq
  · intro u hut
    change SessionOk _ (vm'.threads u).pc _ _
    rw [hother u hut]
    apply (h.others u hut).stable
    · exact fun view hview => mem_cons_of_mem _ hview
    · exact fun _ _ => rfl
    · exact fun _ => ⟨rfl, rfl, rfl, rfl⟩

/-- The snapshot of a slot that a session pins or owns is not changed by another one. -/
theorem Core.data_kept (h : s.Core t) (hnext : s.store.next t choice = some store')
    (hut : u ≠ t) {i : Fin n}
    (hi : (s.store.threads u).pinned = some i ∨ (s.store.threads u).owned = some i) :
    (store'.store.slots i).data = (s.store.store.slots i).data := by
  have hslot := h.parts.store.slot i
  rcases hi with hpinned | howned
  · exact h.parts.store.data_kept ⟨t, choice, hnext⟩
      (StoreState.Pinned.holders_pos (.inr ⟨u, hpinned⟩))
  · obtain ⟨⟨store'', pc'⟩, hmove, rfl⟩ := Option.map_eq_some_iff.mp hnext
    apply (storeStep_frame hmove).data
    intro ht
    exact hut ((hslot.of_owned ht).2.1 u howned)

omit [Fintype Tid] in
theorem store_next_threads {st st' : StoreState Tid n G} (h : st.next t choice = some st') :
    (∀ u, u ≠ t → st'.threads u = st.threads u) ∧
      storeStep st.store (st.threads t) choice = some (st'.store, st'.threads t) := by
  obtain ⟨⟨store', pc'⟩, hmove, rfl⟩ := Option.map_eq_some_iff.mp h
  refine ⟨fun u hu => update_of_ne hu .., ?_⟩
  dsimp only
  rwa [update_self]

/-- A step of the store other than the exchange of the current slot. -/
theorem Core.storeMove (h : s.Core t) (hnext : s.store.next t choice = some store')
    (hswap : ∀ i g, s.store.threads t ≠ .publishSwap i g) : (s.withStore store').Core t := by
  have hstep : s.store.Step store' := ⟨t, choice, hnext⟩
  obtain ⟨hother, hmove⟩ := store_next_threads hnext
  have hframe := storeStep_frame hmove
  have hcur := hframe.current hswap
  refine ⟨⟨h.parts.vm, h.parts.view, h.parts.store.step hstep, h.parts.generations.step hstep⟩,
    ?_, ?_⟩
  · obtain ⟨hlast, hslots, hcarried⟩ :
        s.store.store.lastReservedGeneration ≤ store'.store.lastReservedGeneration ∧
        (∀ i data, (store'.store.slots i).data = some data →
          s.Recorded data ∨ s.Fresh data.snapshotGeneration) ∧
        ∀ data, (store'.threads t).carried = some data → s.Fresh data.snapshotGeneration := by
      cases hframe.effect with
      | remove hslots hcarried hlast =>
        refine ⟨Nat.le_of_eq hlast.symm, fun i data hi => ?_, fun data hdata => ?_⟩
        · rcases hslots i with heq | hnone
          · exact h.shared.slot i data (heq ▸ hi)
          · rw [hnone] at hi
            cases hi
        · rcases hcarried with heq | hnone
          · exact h.shared.carried t data (heq ▸ hdata)
          · rw [hnone] at hdata
            cases hdata
      | reserve new hslots hcarried hlast hgeneration =>
        refine ⟨by omega, fun i data hi => h.shared.slot i data (hslots i ▸ hi), ?_⟩
        intro data hdata
        rw [hcarried, Option.some.injEq] at hdata
        subst hdata
        exact h.shared.fresh_of_lt (by omega)
      | fill j new hpc hpc' hself hslots hlast =>
        refine ⟨Nat.le_of_eq hlast.symm, fun i data hi => ?_, fun data hdata => ?_⟩
        · by_cases hij : i = j
          · subst hij
            rw [hself, Option.some.injEq] at hi
            subst hi
            exact .inr (h.shared.carried t new (by rw [hpc]; rfl))
          · exact h.shared.slot i data (hslots i hij ▸ hi)
        · rw [hpc'] at hdata
          cases hdata
    refine ⟨h.shared.increasing, Nat.le_trans h.shared.latest_le hlast, h.shared.stamp, hslots,
      (and_forall_ne t).mp ⟨hcarried, fun u hut data hu =>
        h.shared.carried u data (hother u hut ▸ hu)⟩,
      ?_, fun view hview => ?_, h.shared.published, h.shared.installed⟩
    · obtain ⟨data, hdata, hrest⟩ := h.shared.current
      refine ⟨data, ?_, hrest⟩
      change (store'.store.slots store'.store.curSlotIndex).data = _
      rw [hcur]
      exact (h.parts.store.data_kept hstep (StoreState.holders_pos_iff.mpr (.inl rfl))).trans hdata
    · obtain ⟨hle, hgeneration⟩ := h.shared.views view hview
      exact ⟨hle, hgeneration⟩
  · intro u hut
    change SessionOk _ _ (store'.threads u) _
    rw [hother u hut]
    apply (h.others u hut).stable
    · exact fun view hview => hview
    · exact fun i hi => h.data_kept hnext hut hi
    · exact fun _ => ⟨hcur, rfl, rfl, rfl⟩

/-- The exchange of the current slot adds an update to the history. -/
theorem Core.swap (h : s.Core t) (hnext : s.store.next t choice = some store') {base : G}
    {change : G → G} {i : Fin n} (hpc : s.store.threads t = .publishSwap i g)
    (hself : s.SessionOk (s.vm.threads t).pc (s.store.threads t) (.publishing ts base change i)) :
    ((s.withStore store').record ⟨ts, g, change⟩).Core t := by
  have hstep : s.store.Step store' := ⟨t, choice, hnext⟩
  obtain ⟨hvm, hbefore, hstorePc, ⟨data, hdata, hgraph, hlt⟩, hbase⟩ := hself
  have hg : g = data.snapshotGeneration := by
    rw [hpc] at hstorePc
    rcases hstorePc with hpublish | ⟨g', heq, hg'⟩
    · cases hpublish
    · cases heq
      rw [hg', SnapshotSlot.snapshotGeneration, hdata]
      rfl
  obtain ⟨hother, hmove⟩ := store_next_threads hnext
  rw [hpc] at hmove
  simp only [storeStep, Option.some.injEq, Prod.mk.injEq] at hmove
  obtain ⟨hstore, hpc'⟩ := hmove
  have hslots : store'.store.slots = s.store.store.slots := by rw [← hstore]; rfl
  have hlast : store'.store.lastReservedGeneration = s.store.store.lastReservedGeneration := by
    rw [← hstore]; rfl
  have hholding : (s.vm.threads t).pc.ts = .holding true ts := by rw [hvm]; rfl
  have hread : s.vm.clock.readTs < ts := by
    have hpending : (s.vm.ts.threads t).pending = some ts := by
      change (s.vm.threads t).pc.ts.pending = _
      rw [hholding]
      rfl
    exact (h.parts.vm.ts.outstanding_bounds (h.parts.vm.ts.outstanding_of_pending hpending)).1
  have hat : s.store.generationAt (.inl i) = some g := by
    simp only [StoreState.generationAt, hdata, Option.map_some, hg]
  have hclash : ∀ k {g'}, k ≠ .inl i → s.store.generationAt k = some g' → g ≠ g' :=
    fun k _ hk hat' heq => hk (h.parts.generations.inj hat' (heq ▸ hat))
  refine ⟨⟨h.parts.vm, h.parts.view, h.parts.store.step hstep, h.parts.generations.step hstep⟩,
    ?_, ?_⟩
  · refine ⟨⟨hbefore, hg ▸ hlt, h.shared.increasing⟩, ?_, ?_, ?_, ?_, ?_, ?_,
      h.shared.published, .inr ⟨t, _, s.history, rfl, hholding⟩⟩
    · change g ≤ store'.store.lastReservedGeneration
      rw [hlast]
      exact h.parts.generations.le hat
    · refine forall_mem_cons.mpr ⟨.inr ⟨t, ?_⟩, h.shared.stamp⟩
      change (s.vm.threads t).pc.ts.exclusiveTs = _
      rw [hholding]
      rfl
    · intro j data' hj
      change (store'.store.slots j).data = _ at hj
      rw [hslots] at hj
      by_cases hji : j = i
      · subst hji
        rw [hdata, Option.some.injEq] at hj
        subst hj
        refine .inl ⟨_, suffix_refl _, hg, ?_⟩
        rw [hgraph, hbase]
        rfl
      · refine (h.shared.slot j data' hj).imp (fun hr => hr.record _) fun hfresh => ?_
        refine Fresh.record hfresh (hclash (.inl j) (Sum.inl_injective.ne hji) ?_)
        simp only [StoreState.generationAt, hj, Option.map_some]
    · intro u data' hu
      change (store'.threads u).carried = _ at hu
      have hold : (s.store.threads u).carried = some data' := by
        by_cases hut : u = t
        · subst hut
          rw [← hpc'] at hu
          cases hu
        · rwa [hother u hut] at hu
      refine Fresh.record (h.shared.carried u data' hold) (hclash (.inr u) Sum.inr_ne_inl ?_)
      simp only [StoreState.generationAt, hold, Option.map_some]
    · refine ⟨data, ?_, hg.symm, ?_⟩
      · change (store'.store.slots store'.store.curSlotIndex).data = _
        rw [hslots, ← hstore]
        exact hdata
      · rw [hgraph, hbase]
        rfl
    · exact fun view hview => (h.shared.views view hview).record hread
  · intro u hut
    change SessionOk _ (s.vm.threads u).pc (store'.threads u) _
    rw [hother u hut]
    apply (h.others u hut).stable
    · exact fun view hview => hview
    · exact fun j hj => h.data_kept hnext hut hj
    · intro hu
      exact absurd (h.alone (by rw [hholding]; rfl) hu.active) hut

end Moves

end SystemState

end Neug.Transaction
