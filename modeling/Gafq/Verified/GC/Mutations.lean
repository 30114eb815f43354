import Gafq.Verified.GC.OpenUpvalues

/-! # The operations of the program

Every operation keeps the invariant.  What an operation stores is live because the program can get
at it, and a store into an object that may be black is followed by its barrier.
-/

namespace Gafq.GC.State

variable {N : Type} {s s' : State N} {o p r : GCRef} {pending : GCRef → GCRef → Prop}

/-! ## Stacks -/

theorem Consistent.accessible (consistent : Consistent pending s) {v : TValue N} (accessible : s.Accessible v)
    (isRef : gcvalue v = some r) : s.Live r :=
  consistent.live (accessible isRef)

theorem Consistent.slot_live (consistent : Consistent pending s) {th i : Nat} (live : s.Live (.thread th))
    (inUse : i < (s.thread th).exposed) (isRef : gcvalue ((s.thread th).stack i) = some r) : s.Live r :=
  consistent.closed live (.inr ⟨i, inUse, isRef⟩)

theorem Consistent.fromTop_live (consistent : Consistent pending s) {n : Nat} (positive : 0 < n)
    (deep : n ≤ (s.thread s.running).top) (isRef : gcvalue (s.fromTop n) = some r) : s.Live r :=
  consistent.slot_live (consistent.root .running) (lt_exposed.2 (.inl (by omega))) isRef

/-- No more slots are in use, and the slots are as they were. -/
theorem Consistent.setFrame {th top : Nat} {ci : List CallInfo} (consistent : Consistent nothing s)
    (fewer : ∀ i, i < ({ s.thread th with top, ci } : ThreadObject N).exposed → i < (s.thread th).exposed) :
    Consistent nothing (s.setThread th { s.thread th with top, ci }) := by
  refine consistent.setThread rfl (fun {r} refers => .inl ?_) fun isRef => .inl isRef
  obtain global | ⟨i, inUse, isRef⟩ := refers
  · exact .inl global
  · exact .inr ⟨i, fewer i inUse, isRef⟩

theorem settop_consistent {th n : Nat} (consistent : Consistent nothing s) (within : n ≤ (s.thread th).exposed) :
    Consistent nothing (s.settop th n) := by
  refine consistent.setFrame fun i inUse => ?_
  obtain below | frame := lt_exposed.1 inUse
  · exact Nat.lt_of_lt_of_le below within
  · exact lt_exposed.2 (.inr frame)

theorem pop_consistent {n : Nat} (consistent : Consistent nothing s) : Consistent nothing (s.pop n) := by
  refine settop_consistent consistent ?_
  by_contra above
  have inside : (s.thread s.running).exposed < (s.thread s.running).top := by omega
  exact Nat.lt_irrefl _ (lt_exposed.2 (.inl inside))

theorem poscall_consistent {th : Nat} (consistent : Consistent nothing s) : Consistent nothing (s.poscall th) := by
  refine consistent.setFrame fun i inUse => ?_
  obtain below | ⟨ci, member, notC, inside⟩ := lt_exposed.1 inUse
  · exact lt_exposed.2 (.inl below)
  · exact lt_exposed.2 (.inr ⟨ci, List.mem_of_mem_tail member, notC, inside⟩)

theorem precall_consistent {th : Nat} (ci : CallInfo) (consistent : Consistent nothing s) :
    Consistent nothing (s.precall th ci) := by
  unfold precall
  simp only
  split
  · next isC =>
    refine consistent.setFrame fun i inUse => ?_
    obtain below | ⟨ci', member, notC, inside⟩ := lt_exposed.1 inUse
    · exact lt_exposed.2 (.inl below)
    · cases List.mem_cons.1 member with
      | inl head =>
        rw [head, isC] at notC
        cases notC
      | inr tail => exact lt_exposed.2 (.inr ⟨ci', tail, notC, inside⟩)
  · have cleared : ∀ {i r}, gcvalue (if (s.thread th).top ≤ i ∧ i < ci.top then .nil else (s.thread th).stack i) = some r →
        ¬ ((s.thread th).top ≤ i ∧ i < ci.top) ∧ gcvalue ((s.thread th).stack i) = some r := by
      intro i r isRef
      split at isRef
      · cases isRef
      · next outside => exact ⟨outside, isRef⟩
    refine consistent.setThread rfl (fun {r} refers => .inl ?_) fun isRef => .inl (cleared isRef).2
    obtain global | ⟨i, inUse, isRef⟩ := refers
    · exact .inl global
    · obtain ⟨outside, isRef⟩ := cleared isRef
      refine .inr ⟨i, ?_, isRef⟩
      by_cases below : i < (s.thread th).top
      · exact lt_exposed.2 (.inl below)
      · have above : ¬ i < ci.top := fun inside => outside ⟨by omega, inside⟩
        obtain below' | ⟨ci', member, notC, inside⟩ := lt_exposed.1 inUse
        · exact absurd below' above
        · cases List.mem_cons.1 member with
          | inl head => exact absurd (head ▸ inside) above
          | inr tail => exact lt_exposed.2 (.inr ⟨ci', tail, notC, inside⟩)

theorem setSlot_consistent {th i : Nat} {v : TValue N} (consistent : Consistent nothing s)
    (live : ∀ {r}, gcvalue v = some r → s.Live r) : Consistent nothing (s.setSlot th i v) := by
  refine consistent.setThread rfl (fun {r} refers => ?_) fun isRef => slots_update live isRef
  obtain global | ⟨j, inUse, isRef⟩ := refers
  · exact .inl (.inl global)
  · exact (slots_update live isRef).imp (fun before => .inr ⟨j, inUse, before⟩) id

theorem resume_consistent {th : Nat} (consistent : Consistent nothing s) (live : s.Live (.thread th)) :
    Consistent nothing ({ s with running := th } : State N) := by
  refine consistent.storesStack ⟨rfl, fun _ => rfl, fun _ _ _ => Iff.rfl⟩ (fun {p r} after => .inl ?_) rfl fun {r} root => ?_
  · cases p <;> exact after
  · cases root with
    | mainthread => exact .inl .mainthread
    | registry => exact .inl .registry
    | mt tag isMetatable => exact .inl (.mt tag isMetatable)
    | running => exact .inr live

/-! ## Closures -/

theorem pushcclosure_consistent {env n a : Nat} (consistent : Consistent nothing s) (live : s.Live (.table env))
    (deep : n ≤ (s.thread s.running).top) (fresh : s.marked (.closure a) = none) :
    Consistent nothing (s.pushcclosure env n a) := by
  have created := @newclosure_created _ s a (.c env ((List.range n).map fun i =>
      (s.thread s.running).stack ((s.thread s.running).top - n + i))) consistent fresh fun r member => by
    simp only [Closure.refs, List.mem_cons, List.mem_filterMap, List.mem_map, List.mem_range] at member
    obtain rfl | ⟨v, ⟨i, inside, rfl⟩, isRef⟩ := member
    · exact live
    · exact consistent.slot_live (consistent.root .running) (lt_exposed.2 (.inl (by omega))) isRef
  refine push_consistent (pop_consistent created.consistent) fun isRef => ?_
  cases isRef
  exact created.live

/-- The new closure is white, and it is live with what it will refer to. -/
structure Filling (a : Nat) (us : List Nat) (s s' : State N) : Prop where
  consistent : Consistent nothing s'
  spares : Spares s s'
  colour : s'.colour (.closure a) = s.colour (.closure a)
  live : ∀ u ∈ us, s'.Live (.upval u)

theorem findupval_colour_closure (s : State N) (th level fresh a : Nat) :
    (s.findupval th level fresh).2.colour (.closure a) = s.colour (.closure a) := by
  have created : ∀ upval thread uvhead,
      ({ s.marknew (.upval fresh) with upval, thread, uvhead } : State N).colour (.closure a) = s.colour (.closure a) :=
    fun _ _ _ => (colour_marknew s (.upval fresh) (.closure a)).trans (if_neg nofun)
  unfold findupval
  simp only
  split
  · split
    · split
      · exact colour_paint_of_ne s _ nofun
      · rfl
    · exact created ..
  · exact created ..

theorem capture_filling {th a : Nat} (captures : List Capture) : ∀ {s : State N}, Consistent nothing s →
    s.Live (.thread th) → Captures th s captures →
    Filling a (s.capture th captures).1 s (s.capture th captures).2 := by
  induction captures with
  | nil => exact fun consistent _ _ => ⟨consistent, id, rfl, nofun⟩
  | cons c rest inductionHypothesis =>
    intro s consistent live captures
    cases captures with
    | @upvalue _ u _ reachable captures =>
      obtain ⟨consistent', spares, colour, liveRest⟩ := inductionHypothesis consistent live captures
      refine ⟨consistent', spares, colour, fun v member => ?_⟩
      cases List.mem_cons.1 member with
      | inl head =>
        subst head
        exact spares (consistent.live reachable)
      | inr tail => exact liveRest v tail
    | @«local» _ level fresh _ inUse unused captures =>
      have created := findupval_created consistent live inUse unused
      obtain ⟨consistent', spares, colour, liveRest⟩ :=
        inductionHypothesis created.consistent (created.spares live) captures
      refine ⟨consistent', fun before => spares (created.spares before),
        colour.trans (findupval_colour_closure s th level fresh a), fun v member => ?_⟩
      cases List.mem_cons.1 member with
      | inl head => exact head ▸ spares created.live
      | inr tail => exact liveRest v tail

theorem newupvals_filling {a : Nat} (us : List Nat) : ∀ {s : State N}, Consistent nothing s → FreshUpvals s us →
    Filling a us s (us.foldl newupval s) := by
  induction us with
  | nil => exact fun consistent _ => ⟨consistent, id, rfl, nofun⟩
  | cons u us inductionHypothesis =>
    intro s consistent fresh
    cases fresh with
    | cons unused fresh =>
      have created := newupval_created consistent unused
      have kept : (s.newupval u).colour (.closure a) = s.colour (.closure a) :=
        (colour_link s (.upval u) (.closure a)).trans (if_neg nofun)
      obtain ⟨consistent', spares, colour, liveRest⟩ := inductionHypothesis created.consistent fresh
      refine ⟨consistent', fun before => spares (created.spares before), colour.trans kept, fun v member => ?_⟩
      cases List.mem_cons.1 member with
      | inl head => exact head ▸ spares created.live
      | inr tail => exact liveRest v tail

/-- A store into a closure. -/
theorem Consistent.setClosure {a : Nat} {x : Closure N} (consistent : Consistent nothing s)
    (refs : ∀ r ∈ x.refs, r ∈ (s.closure a).refs ∨ s.Live r ∧ (s.colour (.closure a) = some .black → pending (.closure a) r)) :
    Consistent pending (s.setClosure a x) := by
  have refers : ∀ {p r}, (s.setClosure a x).Refers p r →
      s.Refers p r ∨ p = .closure a ∧ s.Live r ∧ (s.colour (.closure a) = some .black → pending (.closure a) r) := by
    intro p r after
    cases p with
    | closure b =>
      by_cases same : b = a
      · subst same
        simp only [Refers, State.setClosure, Function.update_self] at after
        exact (refs r after).imp id fun new => ⟨rfl, new⟩
      · simp only [Refers, State.setClosure, Function.update_of_ne same] at after
        exact .inl after
    | string | udata | proto | table | upval | thread => exact .inl after
  refine consistent.stores ⟨rfl, fun _ => rfl, fun _ _ _ => Iff.rfl⟩ (fun _ after => ?_)
    (fun root => .inl (root.congr rfl rfl rfl rfl)) fun _ {p r} black holds => ?_
  · exact (refers after).imp id fun new => new.2.1
  · obtain after | key := holds
    · obtain before | ⟨rfl, -, isPending⟩ := refers after
      · exact .inl (.inl before)
      · exact .inr (isPending black)
    · exact .inl (.inr key)

/-- The new closure has been filled. -/
theorem Filling.setClosure {a env p : Nat} {us : List Nat} (filling : Filling a us s s')
    (white : s.colour (.closure a) = some (.white s.currentwhite)) (live : s.Live (.table env)) (liveProto : s.Live (.proto p)) :
    Consistent nothing (s'.setClosure a (.gafq env p us)) := by
  refine filling.consistent.setClosure fun r member => .inr ?_
  refine ⟨?_, fun black => ?_⟩
  · simp only [Closure.refs, List.mem_cons, List.mem_map] at member
    obtain rfl | rfl | ⟨u, inList, rfl⟩ := member
    · exact filling.spares live
    · exact filling.spares liveProto
    · exact filling.live u inList
  · rw [filling.colour, white] at black
    cases black

theorem newLclosure_created {env p a : Nat} (consistent : Consistent nothing s) (live : s.Live (.table env))
    (liveProto : s.Live (.proto p)) (fresh : s.marked (.closure a) = none) :
    Created (.closure a) s (s.newLclosure env p a) ∧
    (s.newLclosure env p a).colour (.closure a) = some (.white (s.newLclosure env p a).currentwhite) := by
  refine ⟨newclosure_created consistent fresh fun r member => ?_, ?_⟩
  · simp only [Closure.refs, List.map_nil, List.mem_cons, List.not_mem_nil, or_false] at member
    obtain rfl | rfl := member
    · exact live
    · exact liveProto
  · have currentwhite : (s.newLclosure env p a).currentwhite = s.currentwhite := by
      show (s.link (.closure a)).currentwhite = _
      rw [link, linkroot_frame]
      rfl
    rw [currentwhite]
    exact (colour_link s _ _).trans (if_pos rfl)

theorem opClosure_consistent {env p a ra : Nat} {captures : List Capture} (consistent : Consistent nothing s)
    (live : s.Live (.table env)) (liveProto : s.Live (.proto p)) (fresh : s.marked (.closure a) = none)
    (captured : Captures s.running (s.newLclosure env p a) captures) :
    Consistent nothing (s.opClosure env p captures a ra) := by
  obtain ⟨created, white⟩ := newLclosure_created consistent live liveProto fresh
  have running : (s.newLclosure env p a).running = s.running := link_running s (.closure a)
  have filling := @capture_filling _ s.running a captures (s.newLclosure env p a) created.consistent
    (created.spares (consistent.root .running)) captured
  have filled := filling.setClosure white (created.spares live) (created.spares liveProto)
  have liveClosure := filling.spares created.live
  unfold opClosure
  simp only [running]
  refine setSlot_consistent filled fun isRef => ?_
  cases isRef
  exact liveClosure

theorem closeChunk_consistent {env p a : Nat} {us : List Nat} (consistent : Consistent nothing s)
    (live : s.Live (.table env)) (liveProto : s.Live (.proto p)) (fresh : s.marked (.closure a) = none)
    (unused : FreshUpvals (s.newLclosure env p a) us) : Consistent nothing (s.closeChunk env p us a) := by
  obtain ⟨created, white⟩ := newLclosure_created consistent live liveProto fresh
  have filling := @newupvals_filling _ a us (s.newLclosure env p a) created.consistent unused
  have filled := filling.setClosure white (created.spares live) (created.spares liveProto)
  refine push_consistent filled fun isRef => ?_
  cases isRef
  exact filling.spares created.live

/-! ## Stores with a forward barrier -/

/-- A store through an upvalue, whether it is open or not. -/
theorem setUpvalValue_consistent {u : Nat} {v : TValue N} (consistent : Consistent nothing s)
    (liveValue : ∀ {r}, gcvalue v = some r → s.Live r) :
    Consistent (fun p r => p = .upval u ∧ gcvalue v = some r) (s.setUpvalValue u v) := by
  unfold setUpvalValue
  cases kind : s.upval u with
  | inStack th level => exact (setSlot_consistent consistent liveValue).discharge fun _ isPending => isPending.elim
  | closed old =>
    have upval : ∀ w, w ≠ u → (s.setUpval u (.closed v)).upval w = s.upval w := fun w other =>
      Function.update_of_ne other ..
    have value : (s.setUpval u (.closed v)).upvalValue u = v := by simp only [upvalValue, setUpval, Function.update_self]
    have refers : ∀ {p r}, (s.setUpval u (.closed v)).Refers p r → s.Refers p r ∨ p = .upval u ∧ gcvalue v = some r := by
      intro p r after
      cases p with
      | upval w =>
        by_cases same : w = u
        · subst same
          exact .inr ⟨rfl, value ▸ after⟩
        · simp only [Refers, upvalValue, upval w same] at after
          exact .inl after
      | string | udata | proto | closure | table | thread => exact .inl after
    have stores : Stores s (s.setUpval u (.closed v)) := by
      refine ⟨rfl, fun _ => rfl, fun w th level => ?_⟩
      by_cases same : w = u
      · subst same
        simp [setUpval, kind]
      · rw [upval w same]
    refine consistent.stores stores (fun _ after => ?_) (fun root => .inl (root.congr rfl rfl rfl rfl))
      fun _ {p r} _ holds => ?_
    · exact (refers after).imp id fun new => liveValue new.2
    · obtain after | key := holds
      · exact (refers after).imp .inl id
      · exact .inl (.inr key)

theorem setUpvalValue_colour (s : State N) (u : Nat) (v : TValue N) : (s.setUpvalValue u v).colour = s.colour := by
  unfold setUpvalValue
  split <;> rfl

theorem setUpvalValue_currentwhite (s : State N) (u : Nat) (v : TValue N) :
    (s.setUpvalValue u v).currentwhite = s.currentwhite := by
  unfold setUpvalValue
  split <;> rfl

theorem setUpvalValue_live (s : State N) (u : Nat) (v : TValue N) : (s.setUpvalValue u v).Live r ↔ s.Live r :=
  live_congr (by rw [setUpvalValue_colour]) (setUpvalValue_currentwhite s u v)

theorem opSetupval_consistent {u : Nat} {v : TValue N} (consistent : Consistent nothing s) (live : s.Live (.upval u))
    (liveValue : ∀ {r}, gcvalue v = some r → s.Live r) : Consistent nothing (s.opSetupval u v) :=
  (setUpvalValue_consistent consistent liveValue).barrier ((setUpvalValue_live s u v).2 live)
    (fun isRef => (setUpvalValue_live s u v).2 (liveValue isRef)) id

/-- A store into a userdata. -/
theorem Consistent.setUdata {u : Nat} {x : Udata} (consistent : Consistent nothing s)
    (refs : ∀ r ∈ x.refs, r ∈ (s.udata u).refs ∨ s.Live r ∧ pending (.udata u) r) :
    Consistent pending (s.setUdata u x) := by
  have refers : ∀ {p r}, (s.setUdata u x).Refers p r → s.Refers p r ∨ p = .udata u ∧ s.Live r ∧ pending (.udata u) r := by
    intro p r after
    cases p with
    | udata b =>
      by_cases same : b = u
      · subst same
        simp only [Refers, State.setUdata, Function.update_self] at after
        exact (refs r after).imp id fun new => ⟨rfl, new⟩
      · simp only [Refers, State.setUdata, Function.update_of_ne same] at after
        exact .inl after
    | string | proto | closure | table | upval | thread => exact .inl after
  refine consistent.stores ⟨rfl, fun _ => rfl, fun _ _ _ => Iff.rfl⟩ (fun _ after => ?_)
    (fun root => .inl (root.congr rfl rfl rfl rfl)) fun _ {p r} _ holds => ?_
  · exact (refers after).imp id fun new => new.2.1
  · obtain after | key := holds
    · obtain before | ⟨rfl, -, isPending⟩ := refers after
      · exact .inl (.inl before)
      · exact .inr isPending
    · exact .inl (.inr key)

theorem setmetatableUdata_consistent {u : Nat} {mt : Option Nat} (consistent : Consistent nothing s)
    (live : s.Live (.udata u)) (liveMt : ∀ m ∈ mt, s.Live (.table m)) :
    Consistent nothing (s.setmetatableUdata u mt) := by
  have refs : ∀ r ∈ ({ s.udata u with metatable := mt } : Udata).refs,
      r ∈ (s.udata u).refs ∨ ∃ m, mt = some m ∧ r = .table m := by
    intro r member
    obtain new | rfl := mem_udata_refs.1 member
    · exact .inr new
    · exact .inl (mem_udata_refs.2 (.inr rfl))
  unfold setmetatableUdata
  cases mt with
  | none =>
    refine consistent.setUdata fun r member => .inl ((refs r member).resolve_right ?_)
    rintro ⟨m, same, -⟩
    cases same
  | some m =>
    have stored : Consistent (fun p r => p = .udata u ∧ r = .table m)
        (s.setUdata u { s.udata u with metatable := some m }) := by
      refine consistent.setUdata fun r member => (refs r member).imp id ?_
      rintro ⟨m', same, rfl⟩
      cases same
      exact ⟨liveMt m rfl, rfl, rfl⟩
    exact stored.objbarrier live (liveMt m rfl) id

theorem setfenvUdata_consistent {u env : Nat} (consistent : Consistent nothing s) (live : s.Live (.udata u))
    (liveEnv : s.Live (.table env)) : Consistent nothing (s.setfenvUdata u env) := by
  have stored : Consistent (fun p r => p = .udata u ∧ r = .table env) (s.setUdata u { s.udata u with env }) := by
    refine consistent.setUdata fun r member => ?_
    obtain isMetatable | rfl := mem_udata_refs.1 member
    · exact .inl (mem_udata_refs.2 (.inl isMetatable))
    · exact .inr ⟨liveEnv, rfl, rfl⟩
  exact stored.objbarrier live liveEnv id

theorem setfenvClosure_consistent {a env : Nat} (consistent : Consistent nothing s) (live : s.Live (.closure a))
    (liveEnv : s.Live (.table env)) : Consistent nothing (s.setfenvClosure a env) := by
  have stored : Consistent (fun p r => p = .closure a ∧ r = .table env)
      (s.setClosure a (Closure.setEnv env (s.closure a))) := by
    refine consistent.setClosure fun r member => ?_
    have which : r = .table env ∨ r ∈ (s.closure a).refs := by
      cases kind : s.closure a with
      | c old upvalue =>
        rw [kind] at member
        exact (List.mem_cons.1 member).imp id (List.mem_cons_of_mem _)
      | gafq old p upvals =>
        rw [kind] at member
        exact (List.mem_cons.1 member).imp id (List.mem_cons_of_mem _)
    obtain same | before := which
    · exact .inr ⟨same ▸ liveEnv, fun _ => ⟨rfl, same⟩⟩
    · exact .inl before
  exact stored.objbarrier live liveEnv id

theorem setfenvThread_consistent {th env : Nat} (consistent : Consistent nothing s) (live : s.Live (.thread th))
    (liveEnv : s.Live (.table env)) : Consistent nothing (s.setfenvThread th env) := by
  have stored : Consistent nothing (s.setThread th { s.thread th with gt := .object .table env }) := by
    refine consistent.setThread rfl (fun {r} refers => ?_) fun isRef => .inl isRef
    obtain global | slot := refers
    · cases global
      exact .inr liveEnv
    · exact .inl (.inr slot)
  exact stored.objbarrier live liveEnv fun isPending => isPending.elim

theorem setUpvalue_stored {a n : Nat} {v : TValue N} (consistent : Consistent nothing s)
    (liveValue : ∀ {r}, gcvalue v = some r → s.Live r) :
    Consistent (fun p r => p = .closure a ∧ gcvalue v = some r)
      (s.setClosure a (Closure.setUpvalue n v (s.closure a))) := by
  refine consistent.setClosure fun r member => ?_
  cases kind : s.closure a with
  | c env upvalue =>
    rw [kind] at member
    simp only [Closure.setUpvalue, Closure.refs, List.mem_cons, List.mem_filterMap] at member ⊢
    obtain isEnv | ⟨w, inList, isRef⟩ := member
    · exact .inl (.inl isEnv)
    · obtain inList | rfl := List.mem_or_eq_of_mem_set inList
      · exact .inl (.inr ⟨w, inList, isRef⟩)
      · exact .inr ⟨liveValue isRef, fun _ => by simpa using isRef⟩
  | gafq env p upvals =>
    rw [kind] at member
    exact .inl member

theorem replaceUpvalue_consistent {a : Nat} (n : Nat) (consistent : Consistent nothing s) (live : s.Live (.closure a))
    (deep : 1 ≤ (s.thread s.running).top) : Consistent nothing (s.replaceUpvalue a n) := by
  have liveValue : ∀ {r}, gcvalue (s.fromTop 1) = some r → s.Live r := consistent.fromTop_live Nat.one_pos deep
  exact pop_consistent ((setUpvalue_stored consistent liveValue).barrier live liveValue id)

theorem setmetatableBasic_consistent (tag : BasicType) {mt : Option Nat} (consistent : Consistent nothing s)
    (live : ∀ m ∈ mt, s.Live (.table m)) : Consistent nothing (s.setmetatableBasic tag mt) := by
  refine consistent.storesStack ⟨rfl, fun _ => rfl, fun _ _ _ => Iff.rfl⟩ (fun {p r} after => .inl ?_) rfl fun {r} root => ?_
  · cases p <;> exact after
  · cases root with
    | mainthread => exact .inl .mainthread
    | registry => exact .inl .registry
    | running => exact .inl .running
    | @mt tag' m isMetatable =>
      by_cases same : tag' = tag
      · subst same
        simp only [setmetatableBasic, Function.update_self] at isMetatable
        exact .inr (live m isMetatable)
      · simp only [setmetatableBasic, Function.update_of_ne same] at isMetatable
        exact .inl (.mt tag' isMetatable)

/-! ## Prototypes -/

theorem Consistent.setProto {f : Nat} {x : ProtoObject N} (consistent : Consistent nothing s)
    (refs : ∀ r ∈ x.refs, r ∈ (s.proto f).refs ∨ s.Live r ∧ pending (.proto f) r) :
    Consistent pending (s.setProto f x) := by
  have refers : ∀ {p r}, (s.setProto f x).Refers p r → s.Refers p r ∨ p = .proto f ∧ s.Live r ∧ pending (.proto f) r := by
    intro p r after
    cases p with
    | proto b =>
      by_cases same : b = f
      · subst same
        simp only [Refers, State.setProto, Function.update_self] at after
        exact (refs r after).imp id fun new => ⟨rfl, new⟩
      · simp only [Refers, State.setProto, Function.update_of_ne same] at after
        exact .inl after
    | string | udata | closure | table | upval | thread => exact .inl after
  refine consistent.stores ⟨rfl, fun _ => rfl, fun _ _ _ => Iff.rfl⟩ (fun _ after => ?_)
    (fun root => .inl (root.congr rfl rfl rfl rfl)) fun _ {p r} _ holds => ?_
  · exact (refers after).imp id fun new => new.2.1
  · obtain after | key := holds
    · obtain before | ⟨rfl, -, isPending⟩ := refers after
      · exact .inl (.inl before)
      · exact .inr isPending
    · exact .inl (.inr key)

theorem mem_proto_refs {f : ProtoObject N} : r ∈ f.refs ↔ (∃ a, f.source = some a ∧ r = .string a) ∨
    (∃ v ∈ f.k, gcvalue v = some r) ∨ (∃ a, some a ∈ f.upvalues ∧ r = .string a) ∨ (∃ a, some a ∈ f.p ∧ r = .proto a) ∨
    ∃ a, some a ∈ f.locvars ∧ r = .string a := by
  simp [ProtoObject.refs, eq_comm]

/-- The update adds a reference to `child` and no other. -/
structure Adds (child : Option GCRef) (update : ProtoObject N → ProtoObject N) : Prop where
  refs : ∀ {x r}, r ∈ (update x).refs → r ∈ x.refs ∨ r ∈ child
  child : ∀ {x r}, r ∈ child → r ∈ (update x).refs

theorem adds_source (source : Option Nat) : Adds (N := N) (source.map .string) fun x => { x with source } := by
  constructor
  · intro x r member
    rw [mem_proto_refs] at member ⊢
    obtain ⟨a, isSource, rfl⟩ | other := member
    · exact .inr (Option.mem_map.2 ⟨a, isSource, rfl⟩)
    · exact .inl (.inr other)
  · intro x r member
    obtain ⟨a, isSource, rfl⟩ := Option.mem_map.1 member
    exact mem_proto_refs.2 (.inl ⟨a, isSource, rfl⟩)

theorem adds_constant (v : TValue N) : Adds (gcvalue v) fun x => { x with k := x.k ++ [v] } := by
  constructor
  · intro x r member
    rw [mem_proto_refs] at member ⊢
    simp only [List.mem_append, List.mem_singleton] at member
    obtain source | ⟨w, old | rfl, isRef⟩ | other := member
    · exact .inl (.inl source)
    · exact .inl (.inr (.inl ⟨w, old, isRef⟩))
    · exact .inr isRef
    · exact .inl (.inr (.inr other))
  · intro x r member
    exact mem_proto_refs.2 (.inr (.inl ⟨v, by simp, member⟩))

theorem adds_upvalue (name : Option Nat) :
    Adds (N := N) (name.map .string) fun x => { x with upvalues := x.upvalues ++ [name] } := by
  constructor
  · intro x r member
    rw [mem_proto_refs] at member ⊢
    simp only [List.mem_append, List.mem_singleton] at member
    obtain source | constant | ⟨a, old | rfl, rfl⟩ | other := member
    · exact .inl (.inl source)
    · exact .inl (.inr (.inl constant))
    · exact .inl (.inr (.inr (.inl ⟨a, old, rfl⟩)))
    · exact .inr rfl
    · exact .inl (.inr (.inr (.inr other)))
  · intro x r member
    obtain ⟨a, rfl, rfl⟩ := Option.mem_map.1 member
    exact mem_proto_refs.2 (.inr (.inr (.inl ⟨a, by simp, rfl⟩)))

theorem adds_proto (func : Nat) : Adds (N := N) (some (.proto func)) fun x => { x with p := x.p ++ [some func] } := by
  constructor
  · intro x r member
    rw [mem_proto_refs] at member ⊢
    simp only [List.mem_append, List.mem_singleton, Option.some.injEq] at member
    obtain source | constant | upvalue | ⟨a, old | rfl, rfl⟩ | locvar := member
    · exact .inl (.inl source)
    · exact .inl (.inr (.inl constant))
    · exact .inl (.inr (.inr (.inl upvalue)))
    · exact .inl (.inr (.inr (.inr (.inl ⟨a, old, rfl⟩))))
    · exact .inr rfl
    · exact .inl (.inr (.inr (.inr (.inr locvar))))
  · intro x r member
    cases member
    exact mem_proto_refs.2 (.inr (.inr (.inr (.inl ⟨func, by simp, rfl⟩))))

theorem adds_locvar (name : Option Nat) :
    Adds (N := N) (name.map .string) fun x => { x with locvars := x.locvars ++ [name] } := by
  constructor
  · intro x r member
    rw [mem_proto_refs] at member ⊢
    simp only [List.mem_append, List.mem_singleton] at member
    obtain source | constant | upvalue | proto | ⟨a, old | rfl, rfl⟩ := member
    · exact .inl (.inl source)
    · exact .inl (.inr (.inl constant))
    · exact .inl (.inr (.inr (.inl upvalue)))
    · exact .inl (.inr (.inr (.inr (.inl proto))))
    · exact .inl (.inr (.inr (.inr (.inr ⟨a, old, rfl⟩))))
    · exact .inr rfl
  · intro x r member
    obtain ⟨a, rfl, rfl⟩ := Option.mem_map.1 member
    exact mem_proto_refs.2 (.inr (.inr (.inr (.inr ⟨a, by simp, rfl⟩))))

/-- What a store leaves for the barrier. -/
theorem Adds.stored {f : Nat} {child : Option GCRef} {update : ProtoObject N → ProtoObject N} (adds : Adds child update)
    (consistent : Consistent nothing s) (live : ∀ r ∈ child, s.Live r) :
    Consistent (fun p r => p = .proto f ∧ r ∈ child) (s.setProto f (update (s.proto f))) :=
  consistent.setProto fun r member => (adds.refs member).imp id fun isChild => ⟨live r isChild, rfl, isChild⟩

/-- A store into a prototype with its barrier. -/
theorem Adds.objbarrier {f : Nat} {update : ProtoObject N → ProtoObject N} (adds : Adds (some o) update)
    (consistent : Consistent nothing s) (live : s.Live (.proto f)) (liveChild : s.Live o) :
    Consistent nothing ((s.setProto f (update (s.proto f))).objbarrier (.proto f) o) := by
  have stored := adds.stored (f := f) consistent fun r isChild => Option.some.inj isChild ▸ liveChild
  exact stored.objbarrier live liveChild fun isPending => ⟨isPending.1, (Option.some.inj isPending.2).symm⟩

/-! ## Stores into tables -/

theorem Consistent.setTable {a : Nat} {x : TableObject N} (consistent : Consistent nothing s)
    (refers : ∀ {r}, x.Refers r → (s.table a).Refers r ∨ s.Live r)
    (holds : ∀ {r}, x.Holds r → s.Holds (.table a) r ∨ pending (.table a) r) : Consistent pending (s.setTable a x) := by
  have self : (s.setTable a x).table a = x := Function.update_self ..
  have others : ∀ {b}, b ≠ a → (s.setTable a x).table b = s.table b := fun other => Function.update_of_ne other ..
  have split : ∀ {p r}, (s.setTable a x).Refers p r → s.Refers p r ∨ p = .table a ∧ x.Refers r := by
    intro p r after
    cases p with
    | table b =>
      by_cases same : b = a
      · subst same
        simp only [Refers, self] at after
        exact .inr ⟨rfl, after⟩
      · simp only [Refers, others same] at after
        exact .inl after
    | string | udata | proto | closure | upval | thread => exact .inl after
  refine consistent.stores ⟨rfl, fun _ => rfl, fun _ _ _ => Iff.rfl⟩ (fun _ after => ?_)
    (fun root => .inl (root.congr rfl rfl rfl rfl)) fun _ {p r} _ after => ?_
  · obtain before | ⟨rfl, new⟩ := split after
    · exact .inl before
    · exact refers new
  · obtain after | ⟨b, rfl, i, inside, isRef⟩ := after
    · obtain before | ⟨rfl, new⟩ := split after
      · exact .inl (.inl before)
      · exact holds (.inl new)
    · by_cases same : b = a
      · subst same
        rw [self] at inside isRef
        exact holds (.inr ⟨i, inside, isRef⟩)
      · rw [others same] at inside isRef
        exact .inl (.inr ⟨b, rfl, i, inside, isRef⟩)

theorem setmetatableTable_consistent {a : Nat} {mt : Option Nat} (consistent : Consistent nothing s)
    (live : ∀ m ∈ mt, s.Live (.table m)) : Consistent nothing (s.setmetatableTable a mt) := by
  have refers : ∀ {r}, ({ s.table a with metatable := mt } : TableObject N).Refers r →
      (s.table a).Refers r ∨ ∃ m, mt = some m ∧ r = .table m := by
    rintro r (isMetatable | inArray | inNodes)
    · obtain ⟨m, same, rfl⟩ := Option.map_eq_some_iff.1 isMetatable
      exact .inr ⟨m, same, rfl⟩
    · exact .inl (.inr (.inl inArray))
    · exact .inl (.inr (.inr inNodes))
  have stored : Consistent (fun p r => p = .table a ∧ ∃ m, mt = some m ∧ r = .table m)
      (s.setTable a { s.table a with metatable := mt }) := by
    refine consistent.setTable (fun {r} new => (refers new).imp id ?_) fun {r} new => ?_
    · rintro ⟨m, same, rfl⟩
      exact live m same
    · obtain after | key := new
      · exact (refers after).imp .inl fun new => ⟨rfl, new⟩
      · exact .inl (.inr ⟨a, rfl, key⟩)
  unfold setmetatableTable
  cases mt with
  | none =>
    refine stored.discharge fun _ isPending => ?_
    obtain ⟨-, m, same, -⟩ := isPending
    cases same
  | some m =>
    refine (stored.objbarriert (live m rfl) And.left).discharge fun _ isPending => ?_
    obtain ⟨⟨-, m', same, rfl⟩, other⟩ := isPending
    cases same
    exact absurd rfl other

theorem barriert_spares (s : State N) (a : Nat) (v : TValue N) : Spares s (s.barriert a v) := by
  intro r live
  unfold barriert
  cases gcvalue v with
  | none => exact live
  | some o =>
    simp only [State.objbarriert]
    split
    · next crossing =>
      simp only [Bool.and_eq_true] at crossing
      by_cases same : r = .table a
      · subst same
        exact NonWhite.live (.inl (barrierback_colour (isblack_iff.1 crossing.2)))
      · exact (live_congr (colour_paint_of_ne s _ same) rfl).2 live
    · exact live

/-- The barriers for several keys. -/
theorem barrierkeys_consistent {a : Nat} (keys : List (TValue N)) : ∀ {s : State N} {pending : GCRef → GCRef → Prop},
    Consistent pending s → (∀ k ∈ keys, ∀ {r}, gcvalue k = some r → s.Live r) → (∀ {p r}, pending p r → p = .table a) →
    Consistent (fun p r => pending p r ∧ ∀ k ∈ keys, gcvalue k ≠ some r) (s.barrierkeys a keys) ∧
    Spares s (s.barrierkeys a keys) := by
  induction keys with
  | nil => exact fun consistent _ _ => ⟨consistent.discharge fun _ isPending => .inr ⟨isPending, nofun⟩, id⟩
  | cons k keys inductionHypothesis =>
    intro s pending consistent live only
    have first := consistent.barriert (live k List.mem_cons_self) only
    have spares : Spares s (s.barriert a k) := barriert_spares s a k
    obtain ⟨rest, spares'⟩ := inductionHypothesis first
      (fun k' member _ isRef => spares (live k' (List.mem_cons_of_mem _ member) isRef)) fun isPending => only isPending.1
    refine ⟨rest.discharge fun _ isPending => .inr ⟨isPending.1.1, fun k' member => ?_⟩, fun before => spares' (spares before)⟩
    cases List.mem_cons.1 member with
    | inl head => exact head ▸ isPending.1.2
    | inr tail => exact isPending.2 k' tail

/-- A table whose contents are within a condition holds nothing else. -/
theorem holds_of_kept {P : GCRef → Prop} {x : TableObject N} (kept : Kept P P P x.h)
    (metatable : ∀ {m}, x.metatable = some m → P (.table m)) (holds : x.Holds r) : P r := by
  obtain ⟨n, contents⟩ := kept
  obtain (isMetatable | ⟨i, inside, isRef⟩ | ⟨i, inside, used, isKey | isVal⟩) | ⟨i, inside, isKey⟩ := holds
  · obtain ⟨m, same, rfl⟩ := Option.map_eq_some_iff.1 isMetatable
    exact metatable same
  · exact contents.array i (Nat.lt_of_lt_of_le inside contents.size) r isRef
  · exact contents.key i inside r isKey
  · exact contents.val i inside r isVal
  · exact contents.key i inside r isKey

theorem refers_of_kept {stale P : GCRef → Prop} {x : TableObject N} (kept : Kept stale P P x.h)
    (metatable : ∀ {m}, x.metatable = some m → P (.table m)) (refers : x.Refers r) : P r := by
  obtain ⟨n, contents⟩ := kept
  obtain isMetatable | ⟨i, inside, isRef⟩ | ⟨i, inside, used, isKey | isVal⟩ := refers
  · obtain ⟨m, same, rfl⟩ := Option.map_eq_some_iff.1 isMetatable
    exact metatable same
  · exact contents.array i (Nat.lt_of_lt_of_le inside contents.size) r isRef
  · exact contents.used i inside used r isKey
  · exact contents.val i inside r isVal

/-- What the table at `a` refers to. -/
theorem table_contents {P Q : GCRef → Prop} (a : Nat) (refers : ∀ {r}, s.Refers (.table a) r → P r)
    (holds : ∀ {r}, s.Holds (.table a) r → Q r) : Contents Q P P (s.table a).h.sizearray (s.table a).h where
  size := le_refl _
  array i inside r isRef := refers (.inr (.inl ⟨i, inside, isRef⟩))
  key i inside r isRef := holds (.inr ⟨a, rfl, i, inside, isRef⟩)
  val i inside r isRef := by
    refine refers (.inr (.inr ⟨i, inside, ?_, .inr isRef⟩))
    rintro isNil
    rw [isNil] at isRef
    cases isRef
  used i inside used r isRef := refers (.inr (.inr ⟨i, inside, used, .inl isRef⟩))

/-- A `set` function, the store and the barriers. -/
theorem storeAt_consistent {a : Nat} {insertion : TableM N Slot} {keys : List (TValue N)} (newRef : GCRef → Prop)
    {f : Gafq.Table N → Slot → Option (TValue N)} {v : TValue N} (consistent : Consistent nothing s)
    (live : s.Live (.table a)) (liveValue : ∀ {r}, gcvalue v = some r → s.Live r)
    (liveKeys : ∀ k ∈ keys, ∀ {r}, gcvalue k = some r → s.Live r)
    (isValue : ∀ {h slot w}, f h slot = some w → w = v)
    (alive : Ends (Stored (fun _ => True) s.Live s.Live) (Kept (fun _ => True) s.Live s.Live) (insertion (s.table a).h))
    (held : Ends (Stored (fun r => s.Holds (.table a) r ∨ newRef r) (fun r => s.Holds (.table a) r ∨ newRef r) (s.Holds (.table a)))
      (Kept (s.Holds (.table a)) (s.Holds (.table a)) (s.Holds (.table a))) (insertion (s.table a).h))
    (guarded : ∀ {r}, newRef r → ∃ k ∈ keys, gcvalue k = some r) :
    Consistent nothing (s.storeAt a insertion keys f).2 := by
  have metatableLive : ∀ {m}, (s.table a).metatable = some m → s.Live (.table m) := fun same =>
    consistent.closed live (.inl (by rw [same]; rfl))
  have metatableHeld : ∀ {m}, (s.table a).metatable = some m → s.Holds (.table a) (.table m) := fun same =>
    .inl (.inl (by rw [same]; rfl))
  unfold storeAt
  cases ran : insertion (s.table a).h with
  | error e h =>
    rw [ran] at alive held
    refine consistent.setTable (fun new => .inr ?_) fun new => .inl ?_
    · exact refers_of_kept (x := { s.table a with h }) alive metatableLive new
    · exact holds_of_kept (x := { s.table a with h }) held metatableHeld new
  | ok slot h =>
    rw [ran] at alive held
    simp only
    cases outcome : f h slot with
    | none =>
      have stored : Consistent (fun p r => p = .table a ∧ newRef r) (s.setTable a { s.table a with h }) := by
        obtain ⟨n, contents⟩ := held.1
        have kept : Kept (fun r => s.Holds (.table a) r ∨ newRef r) (fun r => s.Holds (.table a) r ∨ newRef r)
            (fun r => s.Holds (.table a) r ∨ newRef r) h := ⟨n, contents.monoValue .inl⟩
        refine consistent.setTable (fun new => .inr ?_) fun new => ?_
        · exact refers_of_kept (x := { s.table a with h }) alive.1 metatableLive new
        · exact (holds_of_kept (x := { s.table a with h }) kept (fun same => .inl (metatableHeld same)) new).imp id
            fun new => ⟨rfl, new⟩
      refine (barrierkeys_consistent keys stored liveKeys And.left).1.discharge fun _ isPending => ?_
      obtain ⟨⟨-, new⟩, cleared⟩ := isPending
      obtain ⟨k, member, isRef⟩ := guarded new
      exact absurd isRef (cleared k member)
    | some w =>
      obtain rfl := isValue outcome
      have stored : Consistent (fun p r => p = .table a ∧ (newRef r ∨ gcvalue w = some r))
          (s.setTable a { s.table a with h := h.write slot w }) := by
        have each : Each (fun r => s.Holds (.table a) r ∨ newRef r ∨ gcvalue w = some r) w := fun r isRef =>
          .inr (.inr isRef)
        obtain ⟨n, contents⟩ := held.2 .inl each
        have kept : Kept (fun r => s.Holds (.table a) r ∨ newRef r ∨ gcvalue w = some r)
            (fun r => s.Holds (.table a) r ∨ newRef r ∨ gcvalue w = some r)
            (fun r => s.Holds (.table a) r ∨ newRef r ∨ gcvalue w = some r) (h.write slot w) :=
          ⟨n, contents.mono (Or.imp id .inl) (Or.imp id .inl)⟩
        refine consistent.setTable (fun new => .inr ?_) fun new => ?_
        · exact refers_of_kept (x := { s.table a with h := h.write slot w })
            (alive.2 id fun r isRef => liveValue isRef) metatableLive new
        · exact (holds_of_kept (x := { s.table a with h := h.write slot w }) kept (fun same => .inl (metatableHeld same))
            new).imp id fun new => ⟨rfl, new⟩
      obtain ⟨guardedKeys, spares⟩ := barrierkeys_consistent keys stored liveKeys And.left
      refine (guardedKeys.barriert (fun isRef => spares (liveValue isRef)) fun isPending => isPending.1.1).discharge
        fun _ isPending => ?_
      obtain ⟨⟨⟨-, new | isValue⟩, cleared⟩, other⟩ := isPending
      · obtain ⟨k, member, isRef⟩ := guarded new
        exact absurd isRef (cleared k member)
      · exact absurd isValue other

section Tables

variable [GafqNumber N] {mp : MainPosition N}

theorem newkeys_live {a : Nat} {key : TValue N} {found : Slot} (consistent : Consistent nothing s)
    (live : s.Live (.table a)) (liveKey : ∀ {r}, gcvalue key = some r → s.Live r) :
    ∀ k ∈ newkeys mp (s.table a).h key found, ∀ {r}, gcvalue k = some r → s.Live r := by
  intro k member r isRef
  unfold newkeys at member
  split at member
  · cases member
  · split at member
    · cases List.mem_append.1 member with
      | inl old =>
        obtain ⟨n, isLive, rfl⟩ := List.mem_map.1 old
        obtain ⟨i, inside, rfl, used⟩ := mem_liveNodes.1 isLive
        exact consistent.closed live (.inr (.inr ⟨i, inside, used, .inl isRef⟩))
      | inr new =>
        rw [List.mem_singleton.1 new] at isRef
        exact liveKey isRef
    · rw [List.mem_singleton.1 member] at isRef
      exact liveKey isRef

theorem key_mem_newkeys {h : Gafq.Table N} {key : TValue N} {found : Slot} (absent : found = .nilobject) :
    key ∈ newkeys mp h key found := by
  unfold newkeys
  rw [if_neg (by simpa using absent)]
  split
  · exact List.mem_append_right _ List.mem_cons_self
  · exact List.mem_cons_self

/-- A store under any key. -/
theorem setSlot_storeAt {a : Nat} {key v : TValue N} {f : Gafq.Table N → Slot → Option (TValue N)} (mp : MainPosition N)
    (mem : Memory) (consistent : Consistent nothing s) (live : s.Live (.table a)) (liveKey : ∀ {r}, gcvalue key = some r → s.Live r)
    (liveValue : ∀ {r}, gcvalue v = some r → s.Live r) (isValue : ∀ {h slot w}, f h slot = some w → w = v) :
    Consistent nothing (s.storeAt a (Table.setSlot mp mem key)
      (newkeys mp (s.table a).h key ((s.table a).h.getSlot mp key)) f).2 := by
  refine storeAt_consistent (fun r => (s.table a).h.getSlot mp key = .nilobject ∧ gcvalue key = some r)
    consistent live liveValue (newkeys_live consistent live liveKey) isValue ?_ ?_ ?_
  · exact setSlot_stored (table_contents a (consistent.closed live) fun _ => trivial) id id (fun _ => trivial)
      (fun _ => trivial) (.inl fun r isRef => liveKey isRef) mem
  · refine setSlot_stored (table_contents a .inl id) .inl .inl id id ?_ mem
    by_cases absent : (s.table a).h.getSlot mp key = .nilobject
    · exact .inl fun r isRef => .inr ⟨absent, isRef⟩
    · exact .inr ⟨absent, .inl⟩
  · exact fun new => ⟨key, key_mem_newkeys new.1, new.2⟩

theorem settable_consistent {a : Nat} {key v : TValue N} (mem : Memory) (newindex : Bool)
    (consistent : Consistent nothing s) (live : s.Live (.table a)) (liveKey : ∀ {r}, gcvalue key = some r → s.Live r)
    (liveValue : ∀ {r}, gcvalue v = some r → s.Live r) : Consistent nothing (s.settable mp mem a key v newindex) := by
  refine setSlot_storeAt mp mem consistent live liveKey liveValue fun {h slot w} stored => ?_
  split at stored
  · cases stored
  · exact (Option.some.inj stored).symm

theorem rawset_consistent {a : Nat} (mem : Memory) (consistent : Consistent nothing s) (live : s.Live (.table a))
    (deep : 2 ≤ (s.thread s.running).top) : Consistent nothing (s.rawset mp mem a) := by
  have stored := setSlot_storeAt (f := fun _ _ => some (s.fromTop 1)) mp mem consistent live
    (consistent.fromTop_live Nat.two_pos deep) (consistent.fromTop_live Nat.one_pos (by omega))
    fun same => (Option.some.inj same).symm
  unfold rawset
  simp only
  split
  · exact pop_consistent stored
  · exact stored

/-- A store under an integer. -/
theorem setnum_storeAt {a : Nat} {v : TValue N} (mp : MainPosition N) (mem : Memory) (n : Int)
    (consistent : Consistent nothing s) (live : s.Live (.table a)) (liveValue : ∀ {r}, gcvalue v = some r → s.Live r) :
    Consistent nothing (s.storeAt a (Table.setnum mp mem n)
      (newkeys mp (s.table a).h (.number (castNum n)) ((s.table a).h.getnum mp n)) fun _ _ => some v).2 := by
  have held : Ends (Stored (fun r => s.Holds (.table a) r ∨ False) (fun r => s.Holds (.table a) r ∨ False) (s.Holds (.table a)))
      (Kept (s.Holds (.table a)) (s.Holds (.table a)) (s.Holds (.table a))) (Table.setnum mp mem n (s.table a).h) := by
    simp only [or_false]
    exact setnum_stored (table_contents a .inl id) id mem n
  have alive : Ends (Stored (fun _ => True) s.Live s.Live) (Kept (fun _ => True) s.Live s.Live)
      (Table.setnum mp mem n (s.table a).h) :=
    setnum_stored (table_contents a (consistent.closed live) fun _ => trivial) (fun _ => trivial) mem n
  exact storeAt_consistent (fun _ => False) consistent live liveValue
    (newkeys_live consistent live fun isRef => nomatch isRef) (fun same => (Option.some.inj same).symm) alive held
    False.elim

theorem rawseti_consistent {a : Nat} (mem : Memory) (n : Int) (consistent : Consistent nothing s)
    (live : s.Live (.table a)) (deep : 1 ≤ (s.thread s.running).top) : Consistent nothing (s.rawseti mp mem a n) := by
  have stored := setnum_storeAt mp mem n consistent live (consistent.fromTop_live Nat.one_pos deep)
  unfold rawseti
  simp only
  split
  · exact pop_consistent stored
  · exact stored

end Tables

/-! ## One operation -/

theorem Mutates.consistent [GafqNumber N] (mutates : Mutates s s') (consistent : Consistent nothing s) :
    Consistent nothing s' := by
  cases mutates with
  | createtable mem narray nhash fresh => exact createtable_consistent consistent mem narray nhash fresh
  | newthread fresh => exact newthread_consistent consistent fresh
  | newproto fresh => exact newproto_consistent consistent fresh
  | registerlocalvar f name => exact (adds_locvar (some _)).objbarrier consistent (consistent.live f) (consistent.live name)
  | indexupvalue f name => exact (adds_upvalue (some _)).objbarrier consistent (consistent.live f) (consistent.live name)
  | addproto f func => exact (adds_proto _).objbarrier consistent (consistent.live f) (consistent.live func)
  | addk f value =>
    exact ((adds_constant _).stored consistent fun _ isRef => consistent.accessible value isRef).barrier
      (consistent.live f) (consistent.accessible value) id
  | pushcclosure env deep fresh => exact pushcclosure_consistent consistent (consistent.live env) deep fresh
  | opClosure env p fresh _ captured =>
    exact opClosure_consistent consistent (consistent.live env) (consistent.live p) fresh captured
  | @closeChunk env p a us global isProto positive fresh unused =>
    have liveEnv : s.Live (.table env) := consistent.closed (consistent.root .running) (.inl (by rw [global]; rfl))
    have liveProto : s.Live (.proto p) := consistent.fromTop_live Nat.one_pos positive (by rw [isProto]; rfl)
    exact closeChunk_consistent (pop_consistent consistent) liveEnv liveProto fresh unused
  | pushlstr str fresh => exact pushlstr_consistent str consistent fresh
  | newuserdata env fresh => exact newuserdata_consistent consistent fresh (consistent.live env)
  | push _ value => exact push_consistent consistent (consistent.accessible value)
  | settop _ within => exact settop_consistent consistent within
  | setSlot _ _ value => exact setSlot_consistent consistent (consistent.accessible value)
  | precall ci _ => exact precall_consistent ci consistent
  | poscall _ => exact poscall_consistent consistent
  | resume th => exact resume_consistent consistent (consistent.live th)
  | settable mp mem newindex table key value =>
    exact settable_consistent mem newindex consistent (consistent.live table) (consistent.accessible key)
      (consistent.accessible value)
  | setlistItem mp mem n table value =>
    exact setnum_storeAt mp mem n consistent (consistent.live table) (consistent.accessible value)
  | rawset mp mem table deep => exact rawset_consistent mem consistent (consistent.live table) deep
  | rawseti mp mem n table deep => exact rawseti_consistent mem n consistent (consistent.live table) deep
  | opSetupval u value => exact opSetupval_consistent consistent (consistent.live u) (consistent.accessible value)
  | findupval th inUse fresh => exact (findupval_created consistent (consistent.live th) inUse fresh).consistent
  | close level th => exact close_consistent level consistent (consistent.live th)
  | setmetatableTable _ mt => exact setmetatableTable_consistent consistent fun m member => consistent.live (mt m member)
  | setmetatableUdata u mt =>
    exact setmetatableUdata_consistent consistent (consistent.live u) fun m member => consistent.live (mt m member)
  | setmetatableBasic tag mt => exact setmetatableBasic_consistent tag consistent fun m member => consistent.live (mt m member)
  | setfenvClosure a env => exact setfenvClosure_consistent consistent (consistent.live a) (consistent.live env)
  | setfenvUdata u env => exact setfenvUdata_consistent consistent (consistent.live u) (consistent.live env)
  | setfenvThread th env => exact setfenvThread_consistent consistent (consistent.live th) (consistent.live env)
  | replaceUpvalue n a deep => exact replaceUpvalue_consistent n consistent (consistent.live a) deep

end Gafq.GC.State
