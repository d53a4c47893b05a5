import Neug.Transaction.ReadSnapshotLeaseSafety

/-! # Read leases are consistent

Every step of a session keeps the invariant of the system.  It follows that a lease,
for as long as it is held, pins the graph with exactly the updates up to its
visibility timestamp, and that this is the snapshot which was installed when the
timestamp became readable.
-/

namespace Neug.Transaction

open Function Option
open Library Storage Version

namespace SystemState

variable {Tid : Type*} [Fintype Tid] [DecidableEq Tid] {n : Nat} {G : Type*}
  {s s' : SystemState Tid n G} {t : Tid} {choice : SessionChoice n G}

variable {pc : SessionPc n G} {request : StoreRequest n G} {view : PublishedReadView} {ts : Nat}
  {change : G → G} {i : Fin n} {base : G}

/-- The session decides where to go on. -/
theorem Core.goto (h : s.Core t) (hself : s.SessionOk (s.vm.threads t).pc (s.store.threads t) pc) :
    (s.goto t pc).Inv := by
  obtain ⟨⟨hvm, hview, hstore, hgenerations⟩, hshared, hothers⟩ := h
  refine ⟨⟨hvm, hview, hstore, hgenerations⟩, ?_, (forall_update_iff _ fun u =>
    (s.goto t pc).SessionOk (s.vm.threads u).pc (s.store.threads u)).mpr ⟨hself, hothers⟩⟩
  refine ⟨hshared.increasing, hshared.latest_le, hshared.stamp, hshared.slot, hshared.carried,
    hshared.current, fun view hview => ?_, hshared.published, hshared.installed⟩
  obtain ⟨hreadable, hgeneration⟩ := hshared.views view hview
  exact ⟨hreadable, hgeneration⟩

/-- The state in which the view that the version manager publishes is recorded. -/
def seen (s : SystemState Tid n G) (clock' : WriteClock Tid) : SystemState Tid n G :=
  { s with views := clock'.publishedView :: s.views }

/-- Each step of the version manager for a request leads to what the session must know
at `pc`, and gives an exclusive timestamp up only with the last update installed. -/
def VmLeads (s : SystemState Tid n G) (t : Tid) (chance : Chance) (request : Request)
    (pc : SessionPc n G) : Prop :=
  ∀ word' clock' l', VmMove s.vm.word s.vm.clock t (s.vm.threads t) ⟨chance, request⟩
      word' clock' l' →
    (∀ ts, l'.pc.ts.exclusiveTs = some ts →
      (s.vm.threads t).pc.ts.exclusiveTs = some ts ∨ s.Before ts) →
    (s.seen clock').SessionOk l'.pc (s.store.threads t) pc ∧
      ∀ ts, (s.vm.threads t).pc.ts = .holding true ts → l'.pc.ts ≠ .holding true ts →
        clock'.installedGeneration = s.latest

/-- Each step of the store for a request leads to what the session must know at `pc`. -/
def StoreLeads (s : SystemState Tid n G) (t : Tid) (choice : StoreChoice n G)
    (request : StoreRequest n G) (pc : SessionPc n G) : Prop :=
  ∀ store' : StoreState Tid n G, storeStep s.store.store (s.store.threads t)
      { choice with request := request } = some (store'.store, store'.threads t) →
    (s.withStore store').SessionOk (s.vm.threads t).pc (store'.threads t) pc

theorem Core.vmStep (h : s.Core t) (hroom : s.Room t) {request : Request}
    (hmove : s.vmMove t choice request = some s')
    (hreset : ∀ ts rpc, (s.vm.threads t).pc.ts ≠ .resetting ts rpc)
    (hleads : s.VmLeads t choice.vm.chance request pc) :
    s'.Core t ∧ s'.SessionOk (s'.vm.threads t).pc (s'.store.threads t) pc ∧
      s'.sessions = s.sessions := by
  obtain ⟨vm', hnext, rfl⟩ := map_eq_some_iff.mp hmove
  obtain ⟨hsession, hinstall⟩ := hleads _ _ _ (vm_next_threads hnext).2 fun ts hts =>
    h.before_of_reserved hnext hroom hts
  exact ⟨h.vmMove hnext hroom hreset hsession.ts_ne_resetting hinstall, hsession, rfl⟩

theorem Core.storeStep (h : s.Core t) (hmove : s.storeMove t choice request = some s')
    (hswap : ∀ i g, s.store.threads t ≠ .publishSwap i g) :
    s'.Core t ∧ ∃ store', s' = s.withStore store' ∧
      storeStep s.store.store (s.store.threads t) { choice.store with request := request } =
        some (store'.store, store'.threads t) := by
  obtain ⟨store', hnext, rfl⟩ := map_eq_some_iff.mp hmove
  exact ⟨h.storeMove hnext hswap, store', rfl, (store_next_threads hnext).2⟩

/-- An operation of the store that has ended returns to the session. -/
theorem Core.storeReturn (h : s.Core t) (hmove : s.storeMove t choice request = some s')
    (hend : ∃ st, Storage.storeStep s.store.store (s.store.threads t)
      { choice.store with request := request } = some (st, .idle) ∧
        st.slots = s.store.store.slots) :
    s'.Core t ∧ ∃ store', s' = s.withStore store' ∧ store'.threads t = .idle ∧
      store'.store.slots = s.store.store.slots := by
  obtain ⟨st, hend, hslots⟩ := hend
  obtain ⟨hcore, store', rfl, hstep⟩ := h.storeStep hmove fun i g hpc => by
    rw [hpc] at hend
    cases hend
  rw [hend, Option.some.injEq, Prod.mk.injEq] at hstep
  exact ⟨hcore, store', rfl, hstep.2.symm, hstep.1 ▸ hslots⟩

/-- A step of the version manager inside a stretch of the program. -/
theorem Inv.vmStay (h : s.Inv) (hroom : s.Room t) {request : Request}
    (hmove : s.vmMove t choice request = some s') (hpc : s.sessions t = pc)
    (hleads : s.VmLeads t choice.vm.chance request pc) : s'.Inv := by
  subst hpc
  obtain ⟨hcore, hself, hsessions⟩ :=
    (h.core t).vmStep hroom hmove (h.session t).ts_ne_resetting hleads
  apply hcore.inv
  rw [hsessions]
  exact hself

/-- A step of the version manager at the end of a stretch. -/
theorem Core.vmGoto (h : s.Core t) (hroom : s.Room t) {request : Request}
    (hmove : (s.vmMove t choice request).map (·.goto t pc) = some s')
    (hreset : ∀ ts rpc, (s.vm.threads t).pc.ts ≠ .resetting ts rpc)
    (hleads : s.VmLeads t choice.vm.chance request pc) : s'.Inv := by
  obtain ⟨s₁, hvm, rfl⟩ := map_eq_some_iff.mp hmove
  obtain ⟨hcore, hself, -⟩ := h.vmStep hroom hvm hreset hleads
  exact hcore.goto hself

theorem Inv.vmGoto (h : s.Inv) (hroom : s.Room t) {request : Request}
    (hmove : (s.vmMove t choice request).map (·.goto t pc) = some s')
    (hleads : s.VmLeads t choice.vm.chance request pc) : s'.Inv :=
  (h.core t).vmGoto hroom hmove (h.session t).ts_ne_resetting hleads

/-- A step of the store inside a stretch of the program. -/
theorem Inv.storeStay (h : s.Inv) (hmove : s.storeMove t choice request = some s')
    (hpc : s.sessions t = pc) (hswap : ∀ i g, s.store.threads t ≠ .publishSwap i g)
    (hleads : s.StoreLeads t choice.store request pc) : s'.Inv := by
  subst hpc
  obtain ⟨hcore, store', rfl, hstep⟩ := (h.core t).storeStep hmove hswap
  exact hcore.inv (hleads store' hstep)

/-- A session without a guard or token starts an operation of the store. -/
theorem Core.startGoto (h : s.Core t)
    (hmove : (s.storeMove t choice request).map (·.goto t pc) = some s')
    (hidle : s.store.threads t = .idle)
    (hok : ∀ store' : StoreState Tid n G, store'.store.slots = s.store.store.slots →
      (s.withStore store').SessionOk (s.vm.threads t).pc request.entry pc) : s'.Inv := by
  obtain ⟨s₁, hstore, rfl⟩ := map_eq_some_iff.mp hmove
  obtain ⟨hcore, store', rfl, hstep⟩ := h.storeStep hstore (by simp [hidle])
  rw [hidle] at hstep
  apply hcore.goto
  change SessionOk _ _ (store'.threads t) _
  rw [GraphSnapshotStore.start_entry hstep]
  exact hok store' (GraphSnapshotStore.start_frame hstep).1

/-- A session hands a guard or token over to an operation of the store. -/
theorem Inv.consumeGoto (h : s.Inv)
    (hmove : (s.consume t choice request).map (·.goto t pc) = some s')
    (hpc : ∃ i, s.store.threads t = .pinReturned i ∨ s.store.threads t = .prepareReturned i)
    (hok : ∀ store' : StoreState Tid n G, store'.store.slots = s.store.store.slots →
      (s.withStore store').SessionOk (s.vm.threads t).pc request.entry pc) : s'.Inv := by
  obtain ⟨s₂, hboth, rfl⟩ := map_eq_some_iff.mp hmove
  obtain ⟨s₁, hfirst, hsecond⟩ := bind_eq_some_iff.mp hboth
  obtain ⟨hcore, store', rfl, hidle, hstore⟩ := (h.core t).storeReturn hfirst <| by
    obtain ⟨i, hpc | hpc⟩ := hpc <;> rw [hpc] <;> exact ⟨_, rfl, rfl⟩
  refine hcore.startGoto (map_eq_some_iff.mpr ⟨s₂, hsecond, rfl⟩) hidle
    fun store₂ hslots => ?_
  exact hok store₂ (hslots.trans hstore)

omit [Fintype Tid] [DecidableEq Tid] in
/-- A thread that holds no exclusive timestamp has nothing to install. -/
theorem no_install {clock' : WriteClock Tid} {p p' : TsPc} (hp : p.exclusiveTs = none)
    (ts : Nat) (hts : p = .holding true ts) (_ : p' ≠ .holding true ts) :
    clock'.installedGeneration = s.latest := by
  rw [hts] at hp
  cases hp

omit [DecidableEq Tid] in
/-- What a session knows where it stands. -/
theorem Inv.sessionAt (h : s.Inv) (hpc : s.sessions t = pc) :
    s.SessionOk (s.vm.threads t).pc (s.store.threads t) pc :=
  hpc ▸ h.session t

/-! ### Leaving the programs -/

theorem Inv.goto_outside (h : s.Inv)
    (hvm : (s.vm.threads t).pc = .idle ∨ ∃ e, (s.vm.threads t).pc = .threw e)
    (hstore : s.store.threads t = .idle) : (s.goto t .outside).Inv := by
  apply (h.core t).goto
  rcases hvm with hvm | ⟨e, hvm⟩ <;> rw [hvm, hstore] <;>
    refine ⟨trivial, fun ts hts => ?_, .inr trivial⟩
  · cases hts
  · cases e <;> cases hts

/-- An update transaction that has not published anything gives up its timestamp. -/
theorem Core.finish_none (h : s.Core t) (hroom : s.Room t) {b : Bool}
    (hvm : (s.vm.threads t).pc = .updating ts b) (hbefore : s.Before ts)
    (hidle : s.store.threads t = .idle)
    (hmove : (s.vmMove t choice (.finish none)).map (·.goto t .finishing) = some s') : s'.Inv := by
  refine h.vmGoto hroom hmove ?_ fun word' clock' l' hstep _ => ?_
  · intro x rpc hx
    rw [hvm] at hx
    cases hx
  · obtain ⟨hpc', hclock⟩ := hstep.request hvm rfl rfl
    rw [hpc', hclock]
    refine ⟨⟨.inl trivial, hidle⟩, fun x _ _ => ?_⟩
    exact h.installed_of_before hbefore (by rw [hvm]; rfl)

section Programs

variable (h : s.Inv) (hroom : s.Room t) (hnext : s.next t choice = some s')
include h hnext

/-! ### Steps of the store -/

theorem Inv.next_pinning (hpc : s.sessions t = .pinning view) : s'.Inv := by
  obtain ⟨hvm, hview, hpinning⟩ := h.sessionAt hpc
  simp only [next, hpc] at hnext
  split at hnext
  next i hstore =>
    cases hnext
    exact (h.core t).goto ⟨hvm, hview, hstore⟩
  next hrunning =>
    refine h.storeStay hnext hpc hpinning.ne_publishSwap fun store' hstep => ?_
    exact ⟨hvm, hview, (hpinning.step hrunning hstep).1⟩

theorem Inv.next_comparing (hpc : s.sessions t = .comparing view i) : s'.Inv := by
  obtain ⟨hvm, hview, hstore⟩ := h.sessionAt hpc
  simp only [next, hpc] at hnext
  split at hnext
  next heq =>
    cases hnext
    exact (h.core t).goto ⟨hvm, hview, hstore, heq⟩
  next =>
    refine h.consumeGoto hnext ⟨i, .inl hstore⟩ fun store' _ => ?_
    exact ⟨⟨view, hvm⟩, rfl⟩

theorem Inv.next_leased (hpc : s.sessions t = .leased view i) : s'.Inv := by
  obtain ⟨hvm, hview, hstore, heq⟩ := h.sessionAt hpc
  simp only [next, hpc] at hnext
  split at hnext
  · refine h.consumeGoto hnext ⟨i, .inl hstore⟩ fun store' _ => ?_
    exact ⟨⟨view, hvm⟩, rfl⟩
  · cases hnext

theorem Inv.next_clonePin (hpc : s.sessions t = .clonePin ts) : s'.Inv := by
  obtain ⟨hvm, hbefore, hpinning, hcur⟩ := h.sessionAt hpc
  simp only [next, hpc] at hnext
  split at hnext
  next i hstore =>
    cases hnext
    exact (h.core t).goto ⟨hvm, hbefore, hstore, hcur i hstore⟩
  next hrunning =>
    refine h.storeStay hnext hpc hpinning.ne_publishSwap fun store' hstep => ?_
    obtain ⟨hpinning', hcur'⟩ := hpinning.step hrunning hstep
    exact ⟨hvm, hbefore, hpinning', hcur'⟩

theorem Inv.next_cloneRead (hpc : s.sessions t = .cloneRead ts i) : s'.Inv := by
  obtain ⟨hvm, hbefore, hstore, rfl⟩ := h.sessionAt hpc
  simp only [next, hpc] at hnext
  split at hnext
  next data hdata =>
    refine h.consumeGoto hnext ⟨_, .inl hstore⟩ fun store' _ => ?_
    refine ⟨hvm, hbefore, rfl, ?_⟩
    -- the clone is made of the current slot, which holds all updates
    obtain ⟨current, hcurrent, -, hgraph⟩ := h.shared.current
    rw [hdata, Option.some.injEq] at hcurrent
    rw [hcurrent, hgraph]
    rfl
  next => cases hnext

theorem Inv.next_cloneUnpin (hpc : s.sessions t = .cloneUnpin ts base) : s'.Inv := by
  obtain ⟨hvm, hbefore, hreleasing, hbase⟩ := h.sessionAt hpc
  simp only [next, hpc] at hnext
  split at hnext
  next hidle =>
    cases hnext
    exact (h.core t).goto ⟨hvm, hbefore, hidle, hbase⟩
  next hrunning =>
    refine h.storeStay hnext hpc hreleasing.ne_publishSwap fun store' hstep => ?_
    exact ⟨hvm, hbefore, hreleasing.step hrunning hstep, hbase⟩

theorem Inv.next_publishing (hpc : s.sessions t = .publishing ts base change i) : s'.Inv := by
  have hself := h.session t
  rw [hpc] at hself
  simp only [next, hpc] at hnext
  split at hnext
  next j g hstore =>
    obtain ⟨s₁, hmove, rfl⟩ := map_eq_some_iff.mp hnext
    obtain ⟨store', hstep, rfl⟩ := map_eq_some_iff.mp hmove
    obtain rfl : j = i := by
      have hwhere := hself.2.2.1
      rw [hstore] at hwhere
      rcases hwhere with hp | ⟨g', hp, -⟩ <;> cases hp
      rfl
    have hcore := (h.core t).swap hstep hstore hself
    have hmoved := (store_next_threads hstep).2
    rw [hstore] at hmoved
    simp only [Storage.storeStep, Option.some.injEq, Prod.mk.injEq] at hmoved
    apply hcore.goto
    change SessionOk _ _ (store'.threads t) _
    rw [← hmoved.2]
    exact ⟨hself.1, .inl rfl, _, _, rfl, rfl⟩
  next hswap =>
    obtain ⟨hvm, hbefore, hstore, hfilled, hbase⟩ := hself
    have hpublish : s.store.threads t = .publish i := by
      rcases hstore with hp | ⟨g, hp, -⟩
      · exact hp
      · exact absurd hp (hswap i g)
    refine h.storeStay hnext hpc hswap fun store' hstep => ?_
    have hcount := h.parts.store.count_of_publish hpublish
    rw [hpublish] at hstep
    simp only [Storage.storeStep, hcount, if_true, Option.some.injEq, Prod.mk.injEq] at hstep
    rw [← hstep.2]
    refine ⟨hvm, hbefore, .inr ⟨_, rfl, ?_⟩, hfilled.congr ?_, hbase⟩
    · change _ = (store'.store.slots i).snapshotGeneration
      rw [← hstep.1]
    · change (store'.store.slots i).data = _
      rw [← hstep.1]

include hroom

/-! ### Steps that may enter the version manager -/

theorem Inv.next_outside (hpc : s.sessions t = .outside) : s'.Inv := by
  obtain ⟨hother, hbefore, hguarding⟩ := h.sessionAt hpc
  simp only [next, hpc] at hnext
  split at hnext
  · obtain ⟨hrequest, hmove⟩ := ite_none_right_eq_some.mp hnext
    refine h.vmStay hroom hmove hpc fun word' clock' l' hvm hreserved => ?_
    refine ⟨⟨hvm.other hother hrequest, fun ts hts => ?_, hguarding⟩, fun ts hts _ => ?_⟩
    · exact (hreserved ts hts).elim (hbefore ts) id
    · rw [hvm.clock_of_other hother hts]
      exact (h.core t).installed_of_before (hbefore ts (by rw [hts]; rfl)) hts
  · obtain ⟨hrequest, hmove⟩ := ite_none_right_eq_some.mp hnext
    refine h.storeStay hmove hpc (fun i g => ?_) fun store' hstep => ?_
    · exact hguarding.elim (·.ne_publishSwap i g) (·.ne_publishSwap i g)
    · exact ⟨hother, hbefore, hguarding.step hrequest hstep⟩
  · obtain ⟨⟨hvmIdle, hstoreIdle⟩, hmove⟩ := ite_none_right_eq_some.mp hnext
    refine h.vmGoto hroom hmove fun word' clock' l' hvm _ => ?_
    obtain ⟨hpc', -⟩ := hvm.request hvmIdle rfl rfl
    rw [hpc', hvmIdle]
    exact ⟨⟨trivial, nofun, StorePc.eq_idle_of_isIdle hstoreIdle⟩, no_install rfl⟩
  · obtain ⟨⟨hvmIdle, hstoreIdle⟩, hmove⟩ := ite_none_right_eq_some.mp hnext
    refine h.vmGoto hroom hmove fun word' clock' l' hvm _ => ?_
    obtain ⟨hpc', -⟩ := hvm.request hvmIdle rfl rfl
    rw [hpc', hvmIdle]
    exact ⟨⟨trivial, nofun, StorePc.eq_idle_of_isIdle hstoreIdle⟩, no_install rfl⟩
  · cases hnext

theorem Inv.next_acquiring (hpc : s.sessions t = .acquiring) : s'.Inv := by
  obtain ⟨hacquiring, hviews, hidle⟩ := h.sessionAt hpc
  simp only [next, hpc] at hnext
  split at hnext
  next view hvm =>
    exact (h.core t).startGoto hnext hidle fun store' _ => ⟨hvm, hviews view hvm, trivial⟩
  next e hvm =>
    cases hnext
    exact h.goto_outside (.inr ⟨e, hvm⟩) hidle
  next hreading hthrew =>
    refine h.vmStay hroom hnext hpc fun word' clock' l' hvm _ => ?_
    have hwhere : (s.vm.threads t).pc = .readAdmit ∨ (s.vm.threads t).pc = .readLoadView := by
      cases hp : (s.vm.threads t).pc <;> rw [hp] at hacquiring <;>
        first | exact hacquiring.elim | exact .inl rfl | exact .inr rfl | skip
      case reading view => exact absurd hp (hreading view)
      case threw e => exact absurd hp (hthrew e)
    obtain ⟨hacquiring', hview⟩ := hvm.acquiring hwhere
    refine ⟨⟨hacquiring', fun view hp => ?_, hidle⟩, no_install ?_⟩
    · rw [hview view hp]
      exact List.mem_cons_self
    · rcases hwhere with hp | hp <;> rw [hp] <;> rfl

theorem Inv.next_unpinning {again : Bool} (hpc : s.sessions t = .unpinning again) : s'.Inv := by
  obtain ⟨⟨view, hvm⟩, hreleasing⟩ := h.sessionAt hpc
  simp only [next, hpc] at hnext
  split at hnext
  next hidle =>
    refine h.vmGoto hroom hnext fun word' clock' l' hmove _ => ?_
    obtain ⟨hpc', -⟩ := hmove.request hvm rfl rfl
    rw [hpc', hvm]
    exact ⟨⟨trivial, hidle⟩, no_install rfl⟩
  next hrunning =>
    refine h.storeStay hnext hpc hreleasing.ne_publishSwap fun store' hstep => ?_
    exact ⟨⟨view, hvm⟩, hreleasing.step hrunning hstep⟩

theorem Inv.next_leaving {again : Bool} (hpc : s.sessions t = .leaving again) : s'.Inv := by
  obtain ⟨hleaving, hidle⟩ := h.sessionAt hpc
  simp only [next, hpc] at hnext
  split at hnext
  next hvm =>
    split at hnext
    · refine h.vmGoto hroom hnext fun word' clock' l' hmove _ => ?_
      obtain ⟨hpc', -⟩ := hmove.request hvm rfl rfl
      rw [hpc', hvm]
      exact ⟨⟨trivial, nofun, hidle⟩, no_install rfl⟩
    · cases hnext
      exact h.goto_outside (.inl hvm) hidle
  next e hvm =>
    cases hnext
    exact h.goto_outside (.inr ⟨e, hvm⟩) hidle
  next hnotIdle hthrew =>
    refine h.vmStay hroom hnext hpc fun word' clock' l' hmove _ => ?_
    have hwhere : (s.vm.threads t).pc = .sharedRelease := by
      cases hp : (s.vm.threads t).pc <;> rw [hp] at hleaving <;>
        first | exact hleaving.elim | rfl | skip
      case idle => exact absurd hp hnotIdle
      case threw e => exact absurd hp (hthrew e)
    rw [hwhere]
    exact ⟨⟨hmove.leaving hwhere, hidle⟩, no_install rfl⟩

theorem Inv.next_beginning (hpc : s.sessions t = .beginning) : s'.Inv := by
  obtain ⟨hbeginning, hbefore, hidle⟩ := h.sessionAt hpc
  simp only [next, hpc] at hnext
  split at hnext
  next ts b hvm =>
    refine (h.core t).startGoto hnext hidle fun store' _ => ?_
    rw [hvm] at hbeginning hbefore ⊢
    cases b
    · exact ⟨rfl, hbefore ts rfl, trivial, nofun⟩
    · exact hbeginning.elim
  next hvm =>
    cases hnext
    exact h.goto_outside (.inl hvm) hidle
  next e hvm =>
    cases hnext
    exact h.goto_outside (.inr ⟨e, hvm⟩) hidle
  next hupdating hnotIdle hthrew =>
    refine h.vmStay hroom hnext hpc fun word' clock' l' hmove hreserved => ?_
    refine ⟨⟨hmove.beginning hbeginning hupdating hnotIdle hthrew, fun ts hts => ?_, hidle⟩, ?_⟩
    · exact (hreserved ts hts).elim (hbefore ts) id
    · apply no_install
      cases hp : (s.vm.threads t).pc <;> rw [hp] at hbeginning <;>
        first | exact hbeginning.elim | rfl | skip
      case updating ts b => exact absurd hp (hupdating ts b)
      case threw e => exact absurd hp (hthrew e)

theorem Inv.next_executing (hpc : s.sessions t = .executing ts base change) : s'.Inv := by
  obtain ⟨hvm, hbefore, hidle, hbase⟩ := h.sessionAt hpc
  simp only [next, hpc] at hnext
  split at hnext
  · cases hnext
    exact (h.core t).goto ⟨hvm, hbefore, hidle, hbase⟩
  · exact (h.core t).startGoto hnext hidle fun store' _ => ⟨hvm, hbefore, rfl, hbase⟩
  · exact (h.core t).finish_none hroom hvm hbefore hidle hnext
  · cases hnext

theorem Inv.next_preparing (hpc : s.sessions t = .preparing ts base change) : s'.Inv := by
  obtain ⟨hvm, hbefore, hpreparing, hbase⟩ := h.sessionAt hpc
  have hswap : ∀ i g, s.store.threads t ≠ .publishSwap i g := by
    intro i g hswap
    rw [hswap] at hpreparing
    exact hpreparing.elim
  simp only [next, hpc] at hnext
  split at hnext
  next i hstore =>
    cases hnext
    rw [hstore] at hpreparing
    exact (h.core t).goto ⟨hvm, hbefore, hstore, hpreparing, hbase⟩
  next error hstore =>
    obtain ⟨s₁, hmove, hrest⟩ := bind_eq_some_iff.mp hnext
    obtain ⟨hcore, store', rfl, hidle, -⟩ := (h.core t).storeReturn hmove <| by
      rw [hstore]
      exact ⟨_, rfl, rfl⟩
    split at hrest
    · exact hcore.finish_none hroom hvm hbefore hidle hrest
    · cases hrest
      exact hcore.goto ⟨hvm, hbefore, hidle, hbase⟩
  next hreturned hfailed =>
    refine h.storeStay hnext hpc hswap fun store' hstep => ?_
    exact ⟨hvm, hbefore, hpreparing.step hreturned hfailed h.shared.latest_le hstep, hbase⟩

theorem Inv.next_prepared (hpc : s.sessions t = .prepared ts base change i) : s'.Inv := by
  obtain ⟨hvm, hbefore, hstore, hfilled, hbase⟩ := h.sessionAt hpc
  simp only [next, hpc] at hnext
  split at hnext
  · refine h.vmGoto hroom hnext fun word' clock' l' hmove _ => ?_
    obtain ⟨hpc', -⟩ := hmove.request hvm rfl rfl
    rw [hpc', hvm]
    refine ⟨⟨.inl rfl, hbefore, hstore, hfilled, hbase⟩, fun x hx hne => ?_⟩
    exact absurd hx hne
  · refine h.consumeGoto hnext ⟨i, .inr hstore⟩ fun store' _ => ?_
    exact ⟨⟨false, hvm⟩, hbefore, rfl⟩
  · cases hnext

theorem Inv.next_committing (hpc : s.sessions t = .committing ts base change i) : s'.Inv := by
  obtain ⟨hvm, hbefore, hstore, hfilled, hbase⟩ := h.sessionAt hpc
  have hupdating : ∀ {x b}, (s.vm.threads t).pc = .updating x b → x = ts := by
    intro x b hx
    rcases hvm with hvm | ⟨b', hvm⟩ <;> rw [hvm] at hx <;> cases hx
    rfl
  simp only [next, hpc] at hnext
  split at hnext
  next x hx =>
    obtain rfl := hupdating hx
    refine h.consumeGoto hnext ⟨i, .inr hstore⟩ fun store' hslots => ?_
    refine ⟨hx, hbefore, .inl rfl, hfilled.congr ?_, hbase⟩
    change (store'.store.slots i).data = _
    rw [hslots]
  next x hx =>
    obtain rfl := hupdating hx
    refine h.consumeGoto hnext ⟨i, .inr hstore⟩ fun store' _ => ?_
    exact ⟨⟨false, hx⟩, hbefore, rfl⟩
  next htrue hfalse =>
    have hbegin : (s.vm.threads t).pc = .updateBegin ts := by
      rcases hvm with hvm | ⟨b, hvm⟩
      · exact hvm
      · cases b
        · exact absurd hvm (hfalse ts)
        · exact absurd hvm (htrue ts)
    refine h.vmStay hroom hnext hpc fun word' clock' l' hmove _ => ?_
    have hpc' := hmove.committing hbegin
    refine ⟨⟨hpc', hbefore, hstore, hfilled, hbase⟩, fun x hx hne => ?_⟩
    rw [hbegin] at hx
    rcases hpc' with hp | ⟨b, hp⟩ <;> rw [hp] at hne <;> exact absurd hx hne

theorem Inv.next_published (hpc : s.sessions t = .published ts) : s'.Inv := by
  obtain ⟨hvm, hpublishing, hhead⟩ := h.sessionAt hpc
  have hswap : ∀ i g, s.store.threads t ≠ .publishSwap i g := by
    intro i g hswap
    rw [hswap] at hpublishing
    rcases hpublishing with hp | hp <;> cases hp
  simp only [next, hpc] at hnext
  split at hnext
  next g hstore =>
    obtain rfl : g = s.latest := by
      rw [hstore] at hpublishing
      rcases hpublishing with hp | hp <;> cases hp
      rfl
    obtain ⟨s₁, hmove, hrest⟩ := bind_eq_some_iff.mp hnext
    obtain ⟨hcore, store', rfl, hidle, -⟩ := (h.core t).storeReturn hmove <| by
      rw [hstore]
      exact ⟨_, rfl, rfl⟩
    refine hcore.vmGoto hroom hrest (h.session t).ts_ne_resetting
      fun word' clock' l' hvmMove _ => ?_
    obtain ⟨hpc', -⟩ := hvmMove.request hvm rfl rfl
    rw [hpc']
    refine ⟨⟨.inr ⟨ts, rfl⟩, hidle⟩, fun x hx hne => ?_⟩
    change (s.vm.threads t).pc.ts = _ at hx
    rw [hvm] at hx
    exact absurd hx hne
  next hrunning =>
    refine h.storeStay hnext hpc hswap fun store' hstep => ?_
    exact ⟨hvm, hpublishing.step (hrunning _) hstep, hhead⟩

theorem Inv.next_discarding (hpc : s.sessions t = .discarding ts) : s'.Inv := by
  obtain ⟨⟨b, hvm⟩, hbefore, hreleasing⟩ := h.sessionAt hpc
  simp only [next, hpc] at hnext
  split at hnext
  next hidle => exact (h.core t).finish_none hroom hvm hbefore hidle hnext
  next hrunning =>
    refine h.storeStay hnext hpc hreleasing.ne_publishSwap fun store' hstep => ?_
    exact ⟨⟨b, hvm⟩, hbefore, hreleasing.step hrunning hstep⟩

theorem Inv.next_finishing (hpc : s.sessions t = .finishing) : s'.Inv := by
  obtain ⟨hvm, hidle⟩ := h.sessionAt hpc
  simp only [next, hpc] at hnext
  split at hnext
  next hvmIdle =>
    cases hnext
    exact h.goto_outside (.inl hvmIdle) hidle
  next hrunning =>
    refine h.vmStay hroom hnext hpc fun word' clock' l' hmove _ => ?_
    rcases hvm with hfinishing | ⟨ts, hinstall⟩
    · refine ⟨⟨.inl (hmove.finishing hfinishing hrunning), hidle⟩, fun x hx => ?_⟩
      cases hp : (s.vm.threads t).pc <;> rw [hp] at hfinishing hx <;>
        first | exact hfinishing.elim | cases hx
    · obtain ⟨hpc', hinstalled⟩ := hmove.install hinstall
      rw [hpc']
      exact ⟨⟨.inl trivial, hidle⟩, fun _ _ _ => hinstalled⟩

end Programs

/-! ### Runs -/

theorem Inv.step (h : s.Inv) (hstep : s.Step s') : s'.Inv := by
  obtain ⟨t, choice, hroom, hnext⟩ := hstep
  cases hpc : s.sessions t with
  | outside => exact h.next_outside hroom hnext hpc
  | acquiring => exact h.next_acquiring hroom hnext hpc
  | pinning view => exact h.next_pinning hnext hpc
  | comparing view i => exact h.next_comparing hnext hpc
  | leased view i => exact h.next_leased hnext hpc
  | unpinning again => exact h.next_unpinning hroom hnext hpc
  | leaving again => exact h.next_leaving hroom hnext hpc
  | beginning => exact h.next_beginning hroom hnext hpc
  | clonePin ts => exact h.next_clonePin hnext hpc
  | cloneRead ts i => exact h.next_cloneRead hnext hpc
  | cloneUnpin ts base => exact h.next_cloneUnpin hnext hpc
  | executing ts base change => exact h.next_executing hroom hnext hpc
  | preparing ts base change => exact h.next_preparing hroom hnext hpc
  | prepared ts base change i => exact h.next_prepared hroom hnext hpc
  | committing ts base change i => exact h.next_committing hroom hnext hpc
  | publishing ts base change i => exact h.next_publishing hnext hpc
  | published ts => exact h.next_published hroom hnext hpc
  | discarding ts => exact h.next_discarding hroom hnext hpc
  | finishing => exact h.next_finishing hroom hnext hpc

omit [DecidableEq Tid] in
theorem Inv.of_initial [NeZero n] (h : s.Initial) : s.Inv := by
  obtain ⟨graph, view, hview, rfl⟩ := h
  have hslot : ∀ (i : Fin n) data,
      ((GraphSnapshotStore.init graph view.snapshotGeneration).slots i).data = some data →
        data = ⟨graph, view.snapshotGeneration, 0⟩ := by
    intro i data hdata
    simp only [GraphSnapshotStore.init] at hdata
    split at hdata
    · exact (Option.some.inj hdata).symm
    · cases hdata
  refine ⟨⟨.of_initial ⟨view, hview, rfl⟩, ⟨le_rfl, fun t => trivial⟩,
    .of_initial ⟨graph, _, rfl⟩, .of_initial ⟨graph, _, rfl⟩⟩, ?_, fun t => ?_⟩
  · constructor
    · trivial
    · exact le_rfl
    · intro v hv
      cases hv
    · intro i data hdata
      rw [hslot i data hdata]
      exact .inl ⟨[], List.suffix_rfl, rfl, rfl⟩
    · intro t data hdata
      cases hdata
    · exact ⟨⟨graph, view.snapshotGeneration, 0⟩, rfl, rfl, rfl⟩
    · intro v hv
      obtain rfl := List.mem_singleton.mp hv
      exact ⟨le_rfl, rfl⟩
    · exact List.mem_singleton.mpr rfl
    · exact .inl rfl
  · exact ⟨trivial, by rintro _ ⟨⟩, .inr trivial⟩

theorem inv_of_reachable [NeZero n] (hreach : Reachable Initial Step s) : s.Inv :=
  hreach.invariant Inv (fun _ => Inv.of_initial) (fun _ _ _ hinv hstep => hinv.step hstep)

omit [Fintype Tid] [DecidableEq Tid] in
/-- A snapshot with the generation of a view is the graph with the updates up to the
timestamp of the view. -/
theorem Shared.graph_of_generation (h : s.Shared) (hview : view ∈ s.views) {data : SnapshotData G}
    (hdata : (s.store.store.slots i).data = some data)
    (hgeneration : data.snapshotGeneration = view.snapshotGeneration) :
    data.graph = build s.origin (asOf s.history view.visibilityTs) := by
  have hasOf := h.increasing.asOf_suffix view.visibilityTs
  have htag := (h.views view hview).generation
  rcases h.slot i data hdata with ⟨l, hl, hlatest, hgraph⟩ | hfresh
  · have heq : l = asOf s.history view.visibilityTs := by
      apply h.increasing.eq_of_latestTag hl hasOf
      rw [hlatest, htag, hgeneration]
    rw [← hgraph, heq]
  · exact absurd (htag.trans hgeneration.symm) (hfresh _ hasOf)

/-- In every reachable state the timestamp and the snapshot of a lease belong together.
The lease's view has been published, with a timestamp that is readable and the generation
of the last update up to that timestamp.  Its slot is pinned and holds the snapshot of
this generation, which is the graph with exactly the updates up to the timestamp. -/
theorem lease_consistent [NeZero n] (hreach : Reachable Initial Step s)
    {view : PublishedReadView} {i : Fin n} (hlease : s.sessions t = .leased view i) :
    view ∈ s.views ∧ view.visibilityTs ≤ s.vm.clock.readTs ∧ view.snapshotGeneration =
        latestTag s.first (asOf s.history view.visibilityTs) ∧ s.store.Pinned i ∧
      ∃ data, (s.store.store.slots i).data = some data ∧
        data.snapshotGeneration = view.snapshotGeneration ∧
        data.graph = build s.origin (asOf s.history view.visibilityTs) := by
  have hinv := inv_of_reachable hreach
  have hself := hinv.session t
  rw [hlease] at hself
  obtain ⟨-, hview, hstore, hgeneration⟩ := hself
  obtain ⟨hreadable, htag⟩ := hinv.shared.views view hview
  have hpinned : s.store.Pinned i := .inr ⟨t, by rw [hstore]; rfl⟩
  obtain ⟨-, -, -, hsome⟩ := (hinv.parts.store.slot i).of_held hpinned.holders_pos
  obtain ⟨data, hdata⟩ := isSome_iff_exists.mp hsome
  have hsame : data.snapshotGeneration = view.snapshotGeneration := by
    rw [← hgeneration]
    unfold SnapshotSlot.snapshotGeneration
    rw [hdata]
    rfl
  exact ⟨hview, hreadable, htag.symm, hpinned, data, hdata, hsame,
    hinv.shared.graph_of_generation hview hdata hsame⟩

def play (s : SystemState Tid n G) (schedule : List (Tid × SessionChoice n G)) :
    Option (SystemState Tid n G) :=
  schedule.foldlM (fun s m =>
    if OperationGateWord.readers s.vm.word < OperationGateWord.kMaxReaderCount then s.next m.1 m.2
    else none) s

omit [Fintype Tid] in
theorem run_of_play {schedule : List (Tid × SessionChoice n G)}
    (hplay : s.play schedule = some s') : Relation.ReflTransGen Step s s' := by
  refine run_of_foldlM (fun _ => True) (fun s m s' _ h => ?_) trivial hplay
  obtain ⟨hroom, hnext⟩ := ite_none_right_eq_some.mp h
  exact ⟨⟨m.1, m.2, fun _ => hroom, hnext⟩, trivial⟩

def repeated (t : Tid) (count : Nat) (act : SessionAct G) : List (Tid × SessionChoice n G) :=
  List.replicate count (t, ⟨act, ⟨⟨false, false⟩, .release⟩, ⟨.pin, false, false⟩⟩)

/-- Session 1 adds one and prepares its snapshot, session 0 takes a lease, and session 1
commits while the lease is held. -/
def commitUnderLease : List (Fin 2 × SessionChoice 2 Nat) :=
  repeated 1 18 (.begin .blocking) ++ repeated 1 1 (.change (· + 1)) ++
    repeated 1 7 (.prepare 0) ++ repeated 0 12 .acquire ++ repeated 1 25 .commit

theorem lease_consistent_commitUnderLease :
    ∃ s : SystemState (Fin 2) 2 Nat, Reachable Initial Step s ∧ s.vm.clock.readTs = 1 ∧
      build s.origin s.history = 1 ∧
      ∃ data, (s.store.store.slots 0).data = some data ∧ data.snapshotGeneration = 0 ∧
        data.graph = 0 := by
  have hplay : ((⟨.init _ ⟨0, 0⟩, ⟨.init 0 0, fun _ => .idle⟩, fun _ => .outside, 0, 0, [],
      [⟨0, 0⟩]⟩ : SystemState (Fin 2) 2 Nat).play commitUnderLease).map
      (fun s => (s.vm.clock.readTs, build s.origin s.history,
        build s.origin (asOf s.history 0),
        match s.sessions 0 with
        | .leased view i => some (view, i)
        | _ => none)) = some (1, 1, 0, some (⟨0, 0⟩, 0)) := by decide +kernel
  obtain ⟨s, hrun, hs⟩ := map_eq_some_iff.mp hplay
  simp only [Prod.mk.injEq] at hs
  obtain ⟨hread, hgraph, hasOf, hsession⟩ := hs
  have hlease : s.sessions 0 = .leased ⟨0, 0⟩ 0 := by
    split at hsession
    next view i hpc =>
      cases hsession
      exact hpc
    next => cases hsession
  have hreach : Reachable Initial Step s :=
    ⟨_, ⟨0, ⟨0, 0⟩, by decide, rfl⟩, run_of_play hrun⟩
  obtain ⟨-, -, -, -, data, hdata, hgeneration, hbuild⟩ := lease_consistent hreach hlease
  exact ⟨s, hreach, hread, hgraph, data, hdata, hgeneration, hbuild.trans hasOf⟩

end SystemState

end Neug.Transaction
