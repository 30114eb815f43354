import Gafq.Loader
import Gafq.Verified.GC.Stacks
import Gafq.Verified.DumpRoundTrip

/-! # Loading a chunk while the collector runs

The reader may run the program, and the collector with it, between any two fields of a `Proto`.
The `Proto` is anchored on the stack, so it is not freed, but it may have been traversed when the
next field is stored, and the loader has no barriers.  A store keeps the invariant exactly if
`gafqC_objbarrier` would have had nothing to do, and if the source that a function inherits has not
been freed in the meantime: the name that stands for an unknown source is not anchored.
-/

namespace Gafq.GC

open Base State

variable {N : Type} {s s' : State N} {o p r : GCRef}

/-! ## Stores -/

/-- No black prototype refers to a white object, and nothing that a live prototype refers to has been
freed. -/
structure State.ProtosGuarded (s : State N) : Prop where
  black : s.gcstate = .propagate → ∀ f r, s.isblack (.proto f) = true → r ∈ (s.proto f).refs → s.iswhite r = false
  live : ∀ f r, s.Live (.proto f) → r ∈ (s.proto f).refs → s.Live r

theorem State.Consistent.protosGuarded (consistent : Consistent nothing s) : s.ProtosGuarded where
  black phase _ _ black member :=
    ((consistent.marking phase).black (isblack_iff.1 black) (Refers.holds member)).elim NonWhite.not_white False.elim
  live _ _ live member := consistent.closed live member

/-- A source that is inherited has not been freed, and while the heap is being marked the prototype is
not black or what is stored is not white. -/
def ProtoStore.Fits (e : ProtoStore N) : Prop :=
  ∀ r ∈ e.child, (e.inherited = true → e.before.Live r) ∧
    (e.before.gcstate = .propagate → e.before.isblack (.proto e.f) = true → e.before.iswhite r = false)

/-- The name for a field as a constant. -/
theorem adds_stringConstant (name : Option Nat) :
    Adds (N := N) (name.map .string) fun x => { x with k := x.k ++ [(name.map TValue.string).getD .nil] } := by
  have added := adds_constant ((name.map TValue.string).getD .nil : TValue N)
  cases name with
  | none => exact added
  | some a => exact added

section Store

variable {f : Nat} {inherited : Bool} {child : Option GCRef} {update : ProtoObject N → ProtoObject N}

/-- A store that fits keeps the invariant. -/
theorem State.Adds.consistent (adds : Adds child update) (consistent : Consistent nothing s)
    (live : inherited = false → ∀ r ∈ child, s.Live r)
    (fits : ProtoStore.Fits ⟨f, inherited, child, s, s.setProto f (update (s.proto f))⟩) :
    Consistent nothing (s.setProto f (update (s.proto f))) := by
  have isLive : ∀ r ∈ child, s.Live r := by
    intro r isChild
    cases inherited with
    | true => exact (fits r isChild).1 rfl
    | false => exact live rfl r isChild
  have stored := adds.stored (f := f) consistent isLive
  by_cases phase : s.gcstate = .propagate
  · refine stored.discharge fun {o r} black isPending => .inl ?_
    obtain ⟨rfl, isChild⟩ := isPending
    exact nonWhite_of_not_white (isLive r isChild).allocated ((fits r isChild).2 phase (isblack_iff.2 black))
  · -- outside the mark phase the colours do not matter
    exact { stored with marking := fun isPropagate => absurd isPropagate phase }

/-- A store that does not fit breaks it. -/
theorem State.Adds.not_guarded (adds : Adds child update) (live : s.Live (.proto f))
    (misfit : ¬ ProtoStore.Fits ⟨f, inherited, child, s, s.setProto f (update (s.proto f))⟩) :
    ¬ (s.setProto f (update (s.proto f))).ProtosGuarded := by
  intro guarded
  refine misfit fun r isChild => ?_
  have member : r ∈ ((s.setProto f (update (s.proto f))).proto f).refs := by
    simp only [State.setProto, Function.update_self]
    exact adds.child isChild
  exact ⟨fun _ => guarded.live f r live member, fun phase black => guarded.black phase f r black member⟩

end Store

/-! ## The state of a load -/

/-- The reader has run a part of the program, which leaves the stack of the running thread as it was,
from the slot `base` on. -/
structure State.Called [GafqNumber N] (base : Nat) (s s' : State N) : Prop where
  run : Run s s'
  running : s'.running = s.running
  top : (s'.thread s.running).top = (s.thread s.running).top
  slot : ∀ {i}, base ≤ i → i < (s.thread s.running).top →
    (s'.thread s.running).stack i = (s.thread s.running).stack i

/-- What the loader relies on. -/
structure LoadEnv.Faithful [GafqNumber N] (env : LoadEnv N) (base : Nat) : Prop where
  reader : ∀ n {s}, Consistent nothing s → Called base s (env.reader n s).2
  string : ∀ n {s}, Consistent nothing s → s.marked (.string (env.malloc n s)) = none
  proto : ∀ n {s}, Consistent nothing s → s.marked (.proto (env.malloc n s)) = none

/-- The prototypes that are being loaded, from the slot `base` up to the top of the stack. -/
structure State.Anchored (base : Nat) (protos : List Nat) (s : State N) : Prop where
  top : (s.thread s.running).top = base + protos.length
  slot : ∀ {i f}, protos[i]? = some f → (s.thread s.running).stack (base + i) = .object .proto f

theorem State.Anchored.congr {base : Nat} {protos : List Nat} (anchored : s.Anchored base protos)
    (running : s'.running = s.running) (thread : s'.thread = s.thread) : s'.Anchored base protos := by
  constructor
  · rw [running, thread]
    exact anchored.top
  · rw [running, thread]
    exact anchored.slot

namespace Loader

structure Sound (base : Nat) (protos : List Nat) (st : LoadState N) : Prop where
  consistent : Consistent nothing st.heap
  anchored : st.heap.Anchored base protos
  stores : ∀ e ∈ st.stores, e.Fits ∧ Consistent nothing e.after

/-- A store has broken the invariant. -/
def Broken (st : LoadState N) : Prop := ∃ e ∈ st.stores, ¬ e.Fits ∧ ¬ e.after.ProtosGuarded

def Loading (base : Nat) (protos : List Nat) (P : State N → Prop) (st : LoadState N) : Prop :=
  Sound base protos st ∧ P st.heap ∨ Broken st

/-- What holds when the loader stops. -/
def Outcome (st : LoadState N) : Prop :=
  (Consistent nothing st.heap ∧ ∀ e ∈ st.stores, e.Fits ∧ Consistent nothing e.after) ∨ Broken st

variable {base : Nat} {protos : List Nat} {P : State N → Prop} {st : LoadState N}

theorem Loading.outcome (loading : Loading base protos P st) : Outcome st :=
  loading.imp (fun sound => ⟨sound.1.consistent, sound.1.stores⟩) id

theorem Loading.forget (loading : Loading base protos P st) : Loading base protos (fun _ => True) st :=
  loading.imp (fun sound => ⟨sound.1, trivial⟩) id

/-- An anchored prototype is live. -/
theorem Sound.live {f : Nat} (sound : Sound base protos st) (anchored : f ∈ protos) : st.heap.Live (.proto f) := by
  obtain ⟨i, inside, rfl⟩ := List.mem_iff_getElem.1 anchored
  have isSlot := sound.anchored.slot (List.getElem?_eq_getElem inside)
  have inUse : base + i < (st.heap.thread st.heap.running).top := by
    rw [sound.anchored.top]
    omega
  exact sound.consistent.live (reachable_slot inUse (by rw [isSlot]; rfl))

/-- A computation that keeps what is known of the heap apart from objects that are not anchored. -/
abbrev Keeps {α : Type} (base : Nat) (protos : List Nat) (m : LoaderM N α) : Prop :=
  Ensures (Loading base protos fun _ => True) m (fun _ => Loading base protos fun _ => True) Outcome

theorem throw_ensures {α : Type} {post : α → LoadState N → Prop} (e : LoadError) :
    Ensures (Loading base protos P) (throw e : LoaderM N α) post Outcome := fun _ loading => loading.outcome

/-! ## Stores into the prototype -/

/-- A string that has been loaded for a field; it is not anchored. -/
def NameLive (name : Option (Nat × TString)) (s : State N) : Prop := ∀ x ∈ name, s.Live (.string x.1)

/-- A store into an anchored prototype. -/
theorem store_ensures {f : Nat} {inherited : Bool} {child : Option GCRef} {update : ProtoObject N → ProtoObject N}
    (adds : Adds child update) (anchored : f ∈ protos)
    (live : ∀ {s}, inherited = false → P s → ∀ r ∈ child, s.Live r) :
    Ensures (Loading base protos P) (store f inherited child update) (fun _ => Loading base protos fun _ => True)
      Outcome := by
  refine Ensures.modify fun st loading => ?_
  obtain ⟨sound, holds⟩ | ⟨e, made, broken⟩ := loading
  · by_cases fits : ProtoStore.Fits ⟨f, inherited, child, st.heap, st.heap.setProto f (update (st.heap.proto f))⟩
    · have consistent := adds.consistent sound.consistent (fun notInherited => live notInherited holds) fits
      refine .inl ⟨⟨consistent, sound.anchored.congr rfl rfl, fun e made => ?_⟩, trivial⟩
      obtain old | new := List.mem_append.1 made
      · exact sound.stores e old
      · rw [List.mem_singleton.1 new]
        exact ⟨fits, consistent⟩
    · exact .inr ⟨_, List.mem_append_right _ (List.mem_singleton_self _), fits,
        adds.not_guarded (sound.live anchored) fits⟩
  · exact .inr ⟨e, List.mem_append_left _ made, broken⟩

theorem storeString_ensures {f : Nat} {name : Option (Nat × TString)} {update : Option Nat → ProtoObject N → ProtoObject N}
    (adds : ∀ a, Adds (a.map .string) (update a)) (anchored : f ∈ protos) :
    Ensures (Loading base protos (NameLive name)) (storeString f name update)
      (fun _ => Loading base protos fun _ => True) Outcome := by
  refine (store_ensures (adds (name.map Prod.fst)) anchored fun _ isLive r isChild => ?_).bind fun _ _ loading => loading
  obtain ⟨a, isName, rfl⟩ := Option.mem_map.1 isChild
  obtain ⟨x, isSome, rfl⟩ := Option.mem_map.1 isName
  exact isLive x isSome

/-- A constant that is not a string. -/
theorem addConstant_keeps {f : Nat} {v : TValue N} (anchored : f ∈ protos) (notRef : gcvalue v = none) :
    Keeps base protos (addConstant f v) :=
  store_ensures (adds_constant v) anchored fun _ _ _ isRef => nomatch notRef.symm.trans isRef

/-- When the prototype is taken off the stack it is still live. -/
theorem pop_ensures (f : Nat) : Ensures (Loading base (protos ++ [f]) fun _ => True)
    (modify fun st => { st with heap := st.heap.pop 1 } : LoaderM N Unit)
    (fun _ => Loading base protos fun s => s.Live (.proto f)) Outcome := by
  refine Ensures.modify fun st loading => ?_
  obtain ⟨sound, -⟩ | broken := loading
  · have top := sound.anchored.top
    rw [List.length_append, List.length_singleton] at top
    have thread : (st.heap.pop 1).thread st.heap.running =
        { st.heap.thread st.heap.running with top := base + protos.length } := by
      simp only [pop, setThread, Function.update_self, top, Nat.add_sub_cancel, ← Nat.add_assoc]
    refine .inl ⟨⟨pop_consistent sound.consistent, ⟨?_, fun {i g} isProto => ?_⟩, sound.stores⟩, ?_⟩
    · show ((st.heap.pop 1).thread st.heap.running).top = _
      rw [thread]
    · show ((st.heap.pop 1).thread st.heap.running).stack _ = _
      rw [thread]
      have inside := (List.getElem?_eq_some_iff.1 isProto).1
      exact sound.anchored.slot (by rw [List.getElem?_append_left inside]; exact isProto)
    · exact sound.live (List.mem_append_right _ (List.mem_singleton_self f))
  · exact .inr broken

theorem loadNested_keeps {f : Nat} {load : LoaderM N (Nat × Proto)} (anchored : f ∈ protos)
    (loads : Ensures (Loading base protos fun _ => True) load
      (fun x => Loading base protos fun s => s.Live (.proto x.1)) Outcome) :
    Keeps base protos (loadNested f load) := by
  refine loads.bind fun x => ?_
  refine (store_ensures (adds_proto x.1) anchored fun _ isLive r isChild => ?_).bind fun _ _ loading => loading
  exact Option.some.inj isChild ▸ isLive

section Reader

variable [GafqNumber N] {env : LoadEnv N} (faithful : env.Faithful base)

include faithful

/-! ## Input -/

theorem fill_keeps : Keeps base protos (fill env) := by
  refine Ensures.modify fun st loading => ?_
  obtain ⟨sound, -⟩ | broken := loading
  · have called := faithful.reader st.calls sound.consistent
    refine .inl ⟨⟨called.run.consistent sound.consistent, ⟨?_, fun {i f} isProto => ?_⟩, sound.stores⟩, trivial⟩
    · show ((env.reader st.calls st.heap).2.thread (env.reader st.calls st.heap).2.running).top = _
      rw [called.running, called.top, sound.anchored.top]
    · have inside : i < protos.length := (List.getElem?_eq_some_iff.1 isProto).1
      show ((env.reader st.calls st.heap).2.thread (env.reader st.calls st.heap).2.running).stack (base + i) = _
      rw [called.running, called.slot (by omega) (by rw [sound.anchored.top]; omega)]
      exact sound.anchored.slot isProto
  · exact .inr broken

theorem lookahead_keeps : Keeps base protos (lookahead env) := by
  have block : Keeps (N := N) base protos (do return (← get).buff) := fun _ loading => loading
  have known : Keeps (N := N) base protos get := fun _ loading => loading
  exact known.bind fun _ => Ensures.ite (fun _ => (fill_keeps faithful).bind fun _ => block) fun _ => block

theorem readLoop_keeps : ∀ fuel n, Keeps base protos (readLoop env fuel n) := by
  intro fuel
  induction fuel with
  | zero => exact fun n _ loading => loading
  | succ fuel inductionHypothesis =>
    intro n
    unfold readLoop
    refine Ensures.ite (fun _ _ loading => loading) fun _ => ?_
    refine (lookahead_keeps faithful).bind fun buff => ?_
    refine Ensures.ite (fun _ _ loading => loading) fun _ => ?_
    have advances : Keeps (N := N) base protos (modify fun st => { st with buff := buff.drop (min n buff.length) }) :=
      Ensures.modify fun st loading =>
        loading.imp (fun sound => ⟨⟨sound.1.consistent, sound.1.anchored, sound.1.stores⟩, trivial⟩) id
    exact advances.bind fun _ => (inductionHypothesis _).bind fun _ _ loading => loading

theorem loadBlock_keeps (size : Nat) : Keeps base protos (loadBlock env size) :=
  (readLoop_keeps faithful size size).bind fun _ => Ensures.ite (fun _ => throw_ensures _) fun _ _ loading => loading

theorem loadByte_keeps : Keeps base protos (loadByte env) :=
  (loadBlock_keeps faithful 1).bind fun _ _ loading => loading

theorem loadInt_keeps : Keeps base protos (loadInt env) :=
  (loadBlock_keeps faithful _).bind fun _ => Ensures.ite (fun _ => throw_ensures _) fun _ _ loading => loading

theorem loadRawInt_keeps : Keeps base protos (loadRawInt env) :=
  (loadBlock_keeps faithful _).bind fun _ _ loading => loading

theorem loadInstruction_keeps : Keeps base protos (loadInstruction env) :=
  (loadBlock_keeps faithful _).bind fun _ _ loading => loading

theorem loadVector_keeps {α : Type} {element : LoaderM N α} (keeps : Keeps base protos element) :
    Keeps base protos (loadVector env element) :=
  (loadInt_keeps faithful).bind fun _ => Ensures.repeatM keeps _

/-! ## Strings -/

theorem newlstr_ensures (str : TString) : Ensures (Loading base protos fun _ => True) (newlstr env str)
    (fun a => Loading base protos fun s => s.Live (.string a)) Outcome := by
  intro st loading
  obtain ⟨sound, -⟩ | broken := loading
  · have created := newlstr_created str sound.consistent (faithful.string st.calls sound.consistent)
    have frame := newlstr_frame st.heap str (env.malloc st.calls st.heap)
    have anchored := sound.anchored.congr (congrArg (·.running) frame) (congrArg (·.thread) frame)
    exact .inl ⟨⟨created.consistent, anchored, sound.stores⟩, created.live⟩
  · exact .inr broken

theorem loadString_ensures : Ensures (Loading base protos fun _ => True) (loadString env)
    (fun name => Loading base protos (NameLive name)) Outcome := by
  have absent : Ensures (Loading (N := N) base protos fun _ => True) (pure none : LoaderM N (Option (Nat × TString)))
      (fun name => Loading base protos (NameLive name)) Outcome :=
    fun st loading => loading.imp (fun sound => ⟨sound.1, fun _ isName => nomatch isName⟩) id
  refine (loadBlock_keeps faithful _).bind fun bs => Ensures.ite (fun _ => absent) fun _ => ?_
  refine (loadBlock_keeps faithful _).bind fun str => (newlstr_ensures faithful _).bind fun a st loading => ?_
  exact loading.imp (fun sound => ⟨sound.1, fun _ isName => Option.some.inj isName ▸ sound.2⟩) id

/-! ## Fields -/

theorem loadConstant_keeps {f : Nat} (anchored : f ∈ protos) : Keeps base protos (loadConstant env f) := by
  refine (loadByte_keeps faithful).bind fun t => ?_
  refine Ensures.ite (fun _ => (addConstant_keeps anchored rfl).bind fun _ _ loading => loading) fun _ => ?_
  refine Ensures.ite (fun _ => ?_) fun _ => ?_
  · exact (loadByte_keeps faithful).bind fun b => (addConstant_keeps anchored rfl).bind fun _ _ loading => loading
  refine Ensures.ite (fun _ => ?_) fun _ => ?_
  · exact (loadBlock_keeps faithful _).bind fun image => (addConstant_keeps anchored rfl).bind fun _ _ loading => loading
  refine Ensures.ite (fun _ => ?_) fun _ => throw_ensures _
  refine (loadString_ensures faithful).bind fun name => ?_
  exact (storeString_ensures adds_stringConstant anchored).bind fun _ _ loading => loading

theorem loadLocVar_keeps {f : Nat} (anchored : f ∈ protos) : Keeps base protos (loadLocVar env f) := by
  refine (loadString_ensures faithful).bind fun name => ?_
  refine (storeString_ensures adds_locvar anchored).bind fun varname => ?_
  exact (loadInt_keeps faithful).bind fun startpc => (loadInt_keeps faithful).bind fun _ _ loading => loading

theorem loadUpvalueName_keeps {f : Nat} (anchored : f ∈ protos) : Keeps base protos (loadUpvalueName env f) :=
  (loadString_ensures faithful).bind fun _ => storeString_ensures adds_upvalue anchored

/-- The source is a string that has just been loaded, or it is inherited. -/
theorem loadSource_keeps {f : Nat} (p : Option (Nat × TString)) (anchored : f ∈ protos) :
    Keeps base protos (loadSource env f p) := by
  refine (loadString_ensures faithful).bind fun name => ?_
  refine (store_ensures (adds_source _) anchored fun notInherited isLive r isChild => ?_).bind fun _ _ loading => loading
  cases name with
  | none => cases notInherited
  | some x =>
    cases isChild
    exact isLive x rfl

/-! ## Functions -/

theorem newproto_ensures : Ensures (Loading base protos fun _ => True) (newproto env)
    (fun f => Loading base (protos ++ [f]) fun _ => True) Outcome := by
  intro st loading
  obtain ⟨sound, -⟩ | broken := loading
  · have consistent := newproto_consistent sound.consistent (faithful.proto st.calls sound.consistent)
    refine .inl ⟨⟨consistent, ?_, sound.stores⟩, trivial⟩
    generalize env.malloc st.calls st.heap = f
    have top := sound.anchored.top
    show (st.heap.newproto f).Anchored base (protos ++ [f])
    have running : (st.heap.newproto f).running = st.heap.running := link_running _ _
    have thread : (st.heap.newproto f).thread st.heap.running = { st.heap.thread st.heap.running with
        stack := Function.update (st.heap.thread st.heap.running).stack (base + protos.length) (.object .proto f)
        top := base + protos.length + 1 } := by
      simp only [State.newproto, push, setThread, State.setProto, link_running, link_thread, Function.update_self, top]
    constructor
    · rw [running, thread, List.length_append, List.length_singleton]
      exact Nat.add_assoc base protos.length 1
    · intro i g isProto
      rw [running, thread]
      obtain inside | last := Nat.lt_or_ge i protos.length
      · rw [List.getElem?_append_left inside] at isProto
        have other : base + i ≠ base + protos.length := by omega
        simp only [Function.update_of_ne other]
        exact sound.anchored.slot isProto
      · obtain ⟨inside, rfl⟩ := List.getElem?_eq_some_iff.1 isProto
        rw [List.length_append, List.length_singleton] at inside
        obtain rfl : i = protos.length := by omega
        simp only [Function.update_self, List.getElem_concat_length]
  · exact .inr broken

/-- The induction is on the levels that are left; the nested functions are loaded with the prototype
of the function on the stack. -/
theorem loadFunction_ensures (levels : Nat) : ∀ (protos : List Nat) (p : Option (Nat × TString)),
    Ensures (Loading base protos fun _ => True) (loadFunction env levels p)
      (fun x => Loading base protos fun s => s.Live (.proto x.1)) Outcome := by
  induction levels with
  | zero => exact fun _ _ _ loading => loading.outcome
  | succ levels inductionHypothesis =>
    intro protos p
    unfold loadFunction
    refine (newproto_ensures faithful).bind fun f => ?_
    have anchored : f ∈ protos ++ [f] := List.mem_append_right _ (List.mem_singleton_self f)
    refine (loadSource_keeps faithful p anchored).bind fun source => ?_
    refine (loadInt_keeps faithful).bind fun linedefined => ?_
    refine (loadInt_keeps faithful).bind fun lastlinedefined => ?_
    refine (loadByte_keeps faithful).bind fun nups => ?_
    refine (loadByte_keeps faithful).bind fun numparams => ?_
    refine (loadByte_keeps faithful).bind fun isVararg => ?_
    refine (loadByte_keeps faithful).bind fun maxstacksize => ?_
    refine (loadVector_keeps faithful (loadInstruction_keeps faithful)).bind fun code => ?_
    refine (loadVector_keeps faithful (loadConstant_keeps faithful anchored)).bind fun k => ?_
    have nested := loadNested_keeps anchored (inductionHypothesis (protos ++ [f]) source)
    refine (loadVector_keeps faithful nested).bind fun p => ?_
    refine (loadVector_keeps faithful (loadRawInt_keeps faithful)).bind fun lineinfo => ?_
    refine (loadVector_keeps faithful (loadLocVar_keeps faithful anchored)).bind fun locvars => ?_
    refine (loadVector_keeps faithful (loadUpvalueName_keeps faithful anchored)).bind fun upvalues => ?_
    refine Ensures.ite (fun _ => ?_) fun _ => throw_ensures _
    exact (pop_ensures f).bind fun _ _ loading => loading

theorem undump_ensures (nCcalls : Nat) : Ensures (Loading base [] fun _ => True) (undump env nCcalls)
    (fun _ => Outcome) Outcome := by
  have header : Keeps base [] (loadHeader env) :=
    (loadBlock_keeps faithful _).bind fun _ => Ensures.ite (fun _ _ loading => loading) fun _ => throw_ensures _
  refine header.bind fun _ => (newlstr_ensures faithful _).bind fun a => ?_
  exact (loadFunction_ensures faithful _ _ _).weaken (fun st loading => loading.forget) fun _ st loading => loading.outcome

end Reader

/-- The invariant holds after every store exactly if every store fits, and then it holds when the
loader stops. -/
theorem undump_guarded_iff [GafqNumber N] {env : LoadEnv N} (nCcalls : Nat)
    (faithful : env.Faithful (st.heap.thread st.heap.running).top) (consistent : Consistent nothing st.heap)
    (start : st.stores = []) :
    ((∀ e ∈ (finalState (undump env nCcalls) st).stores, e.after.ProtosGuarded) ↔
      ∀ e ∈ (finalState (undump env nCcalls) st).stores, e.Fits) ∧
    ((∀ e ∈ (finalState (undump env nCcalls) st).stores, e.Fits) →
      Consistent nothing (finalState (undump env nCcalls) st).heap ∧
      ∀ e ∈ (finalState (undump env nCcalls) st).stores, Consistent nothing e.after) := by
  have sound : Sound (st.heap.thread st.heap.running).top [] st :=
    ⟨consistent, ⟨rfl, fun isProto => nomatch isProto⟩, fun e made => by rw [start] at made; cases made⟩
  have outcome : Outcome (finalState (undump env nCcalls) st) :=
    (undump_ensures faithful nCcalls).finalState (.inl ⟨sound, trivial⟩)
  generalize finalState (undump env nCcalls) st = st' at outcome
  obtain ⟨consistent', kept⟩ | ⟨e, made, misfit, broken⟩ := outcome
  · exact ⟨⟨fun _ e made => (kept e made).1, fun _ e made => (kept e made).2.protosGuarded⟩,
      fun _ => ⟨consistent', fun e made => (kept e made).2⟩⟩
  · exact ⟨⟨fun guarded => absurd (guarded e made) broken, fun fits => absurd (fits e made) misfit⟩,
      fun fits => absurd (fits e made) misfit⟩

end Loader

/-! ## A reader that runs the collector -/

def GCRef.address : GCRef → Nat
  | .string a | .udata a | .proto a | .closure a | .table a | .upval a | .thread a => a

/-- An address above those of all objects. -/
def State.unused (s : State N) : Nat := (s.objects.map GCRef.address).foldr max 0 + 1

theorem State.Owned.unused (owned : s.Owned) (isUnused : r.address = s.unused) : s.marked r = none := by
  by_contra present
  have member := List.mem_map_of_mem (f := GCRef.address) (owned.mem_objects present)
  have bounded : ∀ {as : List Nat} {a}, a ∈ as → a ≤ as.foldr max 0 := by
    intro as
    induction as with
    | nil => exact fun isMember => nomatch isMember
    | cons b as inductionHypothesis =>
      intro a isMember
      obtain rfl | tail := List.mem_cons.1 isMember
      · exact Nat.le_max_left _ _
      · exact (inductionHypothesis tail).trans (Nat.le_max_right _ _)
  have below := bounded member
  unfold State.unused at isUnused
  omega

/-- Some steps of the collector, with the stack as it was. -/
def State.collect (s : State N) (steps : Nat) : State N :=
  let s' := State.singlestep^[steps] s
  s'.settop s'.running (s.thread s.running).top

theorem State.iterate_stacks (steps : Nat) (s : State N) : LeavesStacks s (State.singlestep^[steps] s) := by
  induction steps with
  | zero => exact .refl s
  | succ steps inductionHypothesis =>
    rw [Function.iterate_succ_apply']
    exact inductionHypothesis.trans (singlestep_stacks _)

theorem State.iterate_run [GafqNumber N] (steps : Nat) (s : State N) : Run s (State.singlestep^[steps] s) := by
  induction steps with
  | zero => exact .refl
  | succ steps inductionHypothesis =>
    rw [Function.iterate_succ_apply']
    exact inductionHypothesis.tail .singlestep

theorem State.collect_called [GafqNumber N] (base steps : Nat) (s : State N) : Called base s (s.collect steps) := by
  have leaves := State.iterate_stacks steps s
  have run := State.iterate_run steps s
  unfold State.collect
  generalize State.singlestep^[steps] s = s' at leaves run
  have within : (s.thread s.running).top ≤ (s'.thread s'.running).exposed := by
    rw [leaves.running]
    refine (leaves.top s.running).trans ?_
    by_contra above
    exact absurd (lt_exposed.2 (.inl (not_le.1 above))) (Nat.lt_irrefl _)
  refine ⟨run.tail (.mutates (.settop ⟨_, .running, .refl⟩ within)), leaves.running, ?_, fun {i} _ inUse => ?_⟩
  · simp only [settop, setThread, leaves.running, Function.update_self]
  · simp only [settop, setThread, leaves.running, Function.update_self]
    exact leaves.slot inUse

/-- The chunk comes in two blocks, and the collector takes some steps before the second one. -/
def twoBlocks (chunk : List UInt8) (position steps : Nat) : LoadEnv Int where
  cfg := doubleBuild
  reader n s := if n = 0 then (chunk.take position, s.collect 0) else (chunk.drop position, s.collect steps)
  malloc _ s := s.unused
  number _ := 0

theorem twoBlocks_faithful (chunk : List UInt8) (position steps base : Nat) :
    (twoBlocks chunk position steps).Faithful base where
  reader n s _ := by
    simp only [twoBlocks]
    split <;> exact State.collect_called base _ s
  string _ _ consistent := consistent.owned.unused rfl
  proto _ _ consistent := consistent.owned.unused rfl

/-- A stripped chunk with one constant, the string `"a"`, and the code `RETURN 0 1`. -/
def constantChunk : List UInt8 :=
  (dumpBlocks doubleBuild { (default : Proto) with
    code := [createABC OpCode.return.toNat 0 1 0]
    k := [.string (some [97])]
    maxstacksize := 2 } true).flatten

/-- After the code has been read the collector marks the roots and traverses the main thread and the
prototype on its stack. -/
def constantLoaded : LoadState Int :=
  finalState (Loader.undump (twoBlocks constantChunk 40 5) 0) { heap := newstate }

theorem constantLoaded_eq :
    constantLoaded = finalState (Loader.undump (twoBlocks constantChunk 40 5) 0) { heap := newstate } := rfl

theorem consistent_heap (consistent : Consistent nothing s) : Consistent nothing (LoadState.heap { heap := s }) :=
  consistent

/-- The string has been stored in a black prototype. -/
theorem constantLoaded_store : ∃ e ∈ constantLoaded.stores, e.child = some (.string 41) ∧
    (e.before.gcstate = .propagate ∧ e.before.isblack (.proto e.f) = true ∧ e.before.iswhite (.string 41) = true) ∧
    e.after.gcstate = .propagate ∧ e.after.isblack (.proto e.f) = true ∧ e.after.iswhite (.string 41) = true ∧
    .string 41 ∈ (e.after.proto e.f).refs := by
  have evaluated : (constantLoaded.stores[1]?).map (fun e => decide (e.child = some (.string 41) ∧
      (e.before.gcstate = .propagate ∧ e.before.isblack (.proto e.f) = true ∧ e.before.iswhite (.string 41) = true) ∧
      e.after.gcstate = .propagate ∧ e.after.isblack (.proto e.f) = true ∧ e.after.iswhite (.string 41) = true ∧
      .string 41 ∈ (e.after.proto e.f).refs)) = some true := by
    decide +kernel
  obtain ⟨e, isStore, holds⟩ := Option.map_eq_some_iff.1 evaluated
  exact ⟨e, List.mem_of_getElem? isStore, of_decide_eq_true holds⟩

theorem Loader.undump_guarded_iff_constantChunk : ¬ ∀ e ∈ constantLoaded.stores, e.after.ProtosGuarded := by
  have iffs := @Loader.undump_guarded_iff _ { heap := newstate } _ _ 0 (twoBlocks_faithful constantChunk 40 5 _)
    (consistent_heap newstate_consistent) rfl
  rw [← constantLoaded_eq] at iffs
  obtain ⟨e, made, isChild, ⟨phase, black, white⟩, -⟩ := constantLoaded_store
  intro guarded
  have notWhite := (iffs.1.1 guarded e made _ isChild).2 phase black
  rw [white] at notWhite
  cases notWhite

/-- A chunk and a reader with which a black prototype gets a white constant. -/
theorem undump_leaves_white : ∃ (env : LoadEnv Int) (st : LoadState Int), Consistent nothing st.heap ∧
    st.stores = [] ∧ env.Faithful (st.heap.thread st.heap.running).top ∧
    ∃ e ∈ (finalState (Loader.undump env 0) st).stores, ¬ e.after.ProtosGuarded := by
  refine ⟨twoBlocks constantChunk 40 5, { heap := newstate }, consistent_heap newstate_consistent, rfl,
    twoBlocks_faithful constantChunk 40 5 _, ?_⟩
  rw [← constantLoaded_eq]
  obtain ⟨e, made, -, -, phase, black, white, refers⟩ := constantLoaded_store
  refine ⟨e, made, fun guarded => ?_⟩
  have notWhite := guarded.black phase _ _ black refers
  rw [white] at notWhite
  cases notWhite

end Gafq.GC
