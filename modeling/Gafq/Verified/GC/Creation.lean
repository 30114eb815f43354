import Gafq.Verified.GC.Collector
import Gafq.Verified.GC.TableContents

/-! # New objects

A new object has the current white, so it survives the cycle it is born in, and nothing refers to
it yet.
-/

namespace Gafq.GC.State

variable {N : Type} {s s' : State N} {o p r : GCRef} {pending : GCRef → GCRef → Prop}

structure Creates (o : GCRef) (s s' : State N) : Prop where
  fresh : s.colour o = none
  colour : ∀ r, s'.colour r = if r = o then some (.white s.currentwhite) else s.colour r
  fixed : ∀ {r}, s'.fixed r = true → s.fixed r = true
  gcstate : s'.gcstate = s.gcstate
  currentwhite : s'.currentwhite = s.currentwhite
  tmudata : s'.tmudata = s.tmudata
  mainthread : s'.mainthread = s.mainthread
  registry : s'.registry = s.registry
  root : ∀ {r}, s'.Root r → s.Root r
  gray : s'.gray = s.gray
  grayagain : s'.grayagain = s.grayagain
  weak : s'.weak = s.weak
  refers : ∀ {p r}, s.colour p ≠ none → s'.Refers p r → s.Refers p r
  table : ∀ {a}, .table a ≠ o → s'.table a = s.table a
  upval : ∀ {u th level}, .upval u ≠ o → (s'.upval u = .inStack th level ↔ s.upval u = .inStack th level)
  unswept : ∀ {p}, p ∈ s.unswept → p ∈ s'.unswept
  strings : s.gcstate = .sweepstring →
    ∀ {a}, a ∈ (s.strt.drop s.sweepstrgc).flatten → a ∈ (s'.strt.drop s'.sweepstrgc).flatten

namespace Creates

theorem ne (creates : Creates o s s') (present : s.colour r ≠ none) : r ≠ o := by
  rintro rfl
  exact present creates.fresh

theorem kept (creates : Creates o s s') (present : s.colour r ≠ none) : s'.colour r = s.colour r := by
  rw [creates.colour, if_neg (creates.ne present)]

theorem white (creates : Creates o s s') : s'.colour o = some (.white s.currentwhite) := by
  rw [creates.colour, if_pos rfl]

theorem live (creates : Creates o s s') (before : s.Live r) : s'.Live r :=
  (live_congr (creates.kept before.allocated) creates.currentwhite).2 before

theorem live_self (creates : Creates o s s') : s'.Live o := live_of_white (creates.currentwhite ▸ creates.white)

theorem nonWhite (creates : Creates o s s') (before : s.NonWhite r) : s'.NonWhite r :=
  (nonWhite_congr (creates.kept before.allocated)).2 before

/-- An object that is not white has been there before. -/
theorem before (creates : Creates o s s') {c : Colour} (colour : s'.colour r = some c) (notWhite : c ≠ .white s.currentwhite) :
    s.colour r = some c := by
  rw [creates.colour] at colour
  split at colour
  · cases colour
    exact absurd rfl notWhite
  · exact colour

theorem allocated (creates : Creates o s s') (present : s'.colour r ≠ none) : r = o ∨ s.colour r ≠ none := by
  rw [creates.colour] at present
  split at present
  · next same => exact .inl same
  · exact .inr present

theorem isOpen (creates : Creates o s s') (other : r ≠ o) : s'.IsOpen r ↔ s.IsOpen r := by
  constructor <;> rintro ⟨u, th, level, rfl, kind⟩
  · exact ⟨u, th, level, rfl, (creates.upval other).1 kind⟩
  · exact ⟨u, th, level, rfl, (creates.upval other).2 kind⟩

theorem holds (creates : Creates o s s') (present : s.colour p ≠ none) (holds : s'.Holds p r) : s.Holds p r := by
  obtain after | ⟨a, rfl, key⟩ := holds
  · exact .inl (creates.refers present after)
  · rw [creates.table (creates.ne present)] at key
    exact .inr ⟨a, rfl, key⟩

theorem marking (creates : Creates o s s') (marking : Marking Postponed nothing s) : Marking Postponed nothing s' := by
  have black : ∀ {p}, s'.colour p = some .black → s.colour p = some .black := fun isBlack => creates.before isBlack nofun
  have present : ∀ {p c}, s.colour p = some c → s.colour p ≠ none := fun colour => by rw [colour]; nofun
  constructor
  · intro r
    rw [creates.colour, creates.currentwhite]
    split
    · cases s.currentwhite <;> decide
    · exact marking.noDead
  · intro p r isBlack holds
    have before := black isBlack
    refine (marking.black before (creates.holds (present before) holds)).imp creates.nonWhite id
  · intro p isBlack
    have before := black isBlack
    rw [creates.isOpen (creates.ne (present before))]
    exact marking.notBlack before
  · intro p isGray
    have before := creates.before isGray nofun
    unfold Postponed
    rw [creates.gray, creates.grayagain, creates.weak, creates.isOpen (creates.ne (present before))]
    exact marking.gray before
  · intro p listed
    rw [creates.gray, creates.grayagain, creates.weak] at listed
    exact (marking.listed listed).imp id creates.nonWhite

end Creates

theorem Consistent.creates (consistent : Consistent nothing s) (creates : Creates o s s') (owned : s'.Owned)
    (linked : s'.Linked) (refers : ∀ {r}, s'.Refers o r → s.Live r) : Consistent nothing s' := by
  refine ⟨owned, linked, fun {p r} live after => ?_, fun root => creates.live (consistent.root (creates.root root)),
    fun member => creates.live (consistent.tmudata (creates.tmudata ▸ member)), fun isFixed => ?_, fun {p} black => ?_,
    fun {r c} colour => ?_, fun phase => ?_, fun phase => ?_, ?_⟩
  · obtain rfl | present := creates.allocated live.allocated
    · exact creates.live (refers after)
    · have before := (live_congr (creates.kept present) creates.currentwhite).1 live
      exact creates.live (consistent.closed before (creates.refers present after))
  · rw [creates.mainthread]
    exact consistent.fixed (creates.fixed isFixed)
  · have before := creates.before black nofun
    rw [creates.isOpen (creates.ne (by rw [before]; nofun))]
    exact consistent.notOpen before
  · rw [creates.currentwhite]
    rw [creates.colour] at colour
    split at colour
    · cases colour
      exact .inl rfl
    · next other =>
      refine (consistent.clean colour).imp id fun isPending => ?_
      refine isPending.mono creates.gcstate creates.unswept (fun member => creates.tmudata ▸ member) creates.strings
        fun same kind => (creates.upval (same ▸ other)).2 kind
  · exact creates.marking (consistent.marking (creates.gcstate ▸ phase))
  · rw [creates.mainthread, creates.registry]
    exact (consistent.marked (creates.gcstate ▸ phase)).imp creates.nonWhite creates.nonWhite
  · rw [creates.gcstate, creates.tmudata]
    exact consistent.noneLeft

/-! ## Objects of `rootgc` -/

theorem colour_marknew (s : State N) (o r : GCRef) :
    (s.marknew o).colour r = if r = o then some (.white s.currentwhite) else s.colour r := by
  unfold marknew colour
  by_cases same : r = o
  · subst same
    simp
  · simp [same]

theorem fixed_marknew (isFixed : (s.marknew o).fixed r = true) : s.fixed r = true := by
  unfold marknew at isFixed
  by_cases same : r = o
  · subst same
    simp at isFixed
  · simpa [same] using isFixed

theorem colour_link (s : State N) (o r : GCRef) :
    (s.link o).colour r = if r = o then some (.white s.currentwhite) else s.colour r := by
  rw [link, colour_marknew, linkroot_frame]
  rfl

section LinkFields

variable (s : State N) (o : GCRef)

@[simp] theorem link_table : (s.link o).table = s.table := by
  rw [link, linkroot_frame]
  rfl

@[simp] theorem link_thread : (s.link o).thread = s.thread := by
  rw [link, linkroot_frame]
  rfl

@[simp] theorem link_proto : (s.link o).proto = s.proto := by
  rw [link, linkroot_frame]
  rfl

@[simp] theorem link_closure : (s.link o).closure = s.closure := by
  rw [link, linkroot_frame]
  rfl

@[simp] theorem link_upval : (s.link o).upval = s.upval := by
  rw [link, linkroot_frame]
  rfl

@[simp] theorem link_running : (s.link o).running = s.running := by
  rw [link, linkroot_frame]
  rfl

end LinkFields

section Link

/-- The state before `gafqC_link` gets the new object `o`, and the state after its fields have been set. -/
structure Links (o : GCRef) (s s' : State N) : Prop where
  fresh : s.marked o = none
  notString : ¬ o.IsString
  notUdata : ∀ u, o ≠ .udata u
  frame : s' = { s with
    swept := s'.swept, unswept := s'.unswept, marked := s'.marked, fixed := s'.fixed
    table := s'.table, thread := s'.thread, proto := s'.proto, closure := s'.closure, upval := s'.upval }
  colour : ∀ r, s'.colour r = if r = o then some (.white s.currentwhite) else s.colour r
  fixed : ∀ {r}, s'.fixed r = true → s.fixed r = true
  rootgc : s'.rootgc = o :: s.rootgc
  unswept : ∀ {p}, p ∈ s.unswept → p ∈ s'.unswept
  table : ∀ a, .table a ≠ o → s'.table a = s.table a
  thread : ∀ a, .thread a ≠ o → s'.thread a = s.thread a
  proto : ∀ a, .proto a ≠ o → s'.proto a = s.proto a
  closure : ∀ a, .closure a ≠ o → s'.closure a = s.closure a
  upval : ∀ u, .upval u ≠ o → s'.upval u = s.upval u
  newThread : ∀ a, o = .thread a → (s'.thread a).openupval = []
  newUpval : ∀ u th level, o = .upval u → s'.upval u ≠ .inStack th level

namespace Links

theorem absent (links : Links o s s') (present : s.colour p ≠ none) : p ≠ o := by
  rintro rfl
  exact present links.fresh

theorem refers_before (links : Links o s s') (owned : s.Owned) (present : s.colour p ≠ none) (after : s'.Refers p r) :
    s.Refers p r := by
  have other := links.absent present
  cases p with
  | string a => exact after
  | udata a =>
    rw [links.frame] at after
    exact after
  | proto a =>
    simp only [Refers, links.proto a other] at after
    exact after
  | closure a =>
    simp only [Refers, links.closure a other] at after
    exact after
  | table a =>
    simp only [Refers, links.table a other] at after
    exact after
  | thread a =>
    simp only [Refers, links.thread a other] at after
    exact after
  | upval u =>
    simp only [Refers, upvalValue, links.upval u other] at after ⊢
    cases kind : s.upval u with
    | closed v =>
      rw [kind] at after
      exact after
    | inStack th level =>
      rw [kind] at after
      have inThread := links.absent (owned.openUpval present kind).2.2
      simp only [links.thread th inThread] at after
      exact after

theorem creates (links : Links o s s') (owned : s.Owned) : Creates o s s' := by
  refine ⟨links.fresh, links.colour, links.fixed, ?_, ?_, ?_, ?_, ?_, fun root => ?_, ?_, ?_, ?_, links.refers_before owned,
    fun {a} other => links.table a other, fun {u th level} other => ?_, links.unswept, fun _ {a} => ?_⟩
  · rw [links.frame]
  · rw [links.frame]
  · rw [links.frame]
  · rw [links.frame]
  · rw [links.frame]
  · rw [links.frame] at root
    exact root.congr rfl rfl rfl rfl
  · rw [links.frame]
  · rw [links.frame]
  · rw [links.frame]
  · rw [links.upval u other]
  · rw [links.frame]
    exact id

theorem owned (links : Links o s s') (owned : s.Owned) : s'.Owned := by
  have creates := links.creates owned
  have uvhead : s'.uvhead = s.uvhead := by rw [links.frame]
  have strt : s'.strt = s.strt := by rw [links.frame]
  refine ⟨fun {a} present => ?_, fun {a} present => ?_, fun {p} traversable present => ?_, fun {u v} present kind => ?_,
    fun {u th level} present kind => ?_, fun {th} present => ?_, fun {th u} present member => ?_, ?_⟩
  · rw [strt]
    refine owned.string ((creates.allocated present).resolve_left ?_)
    rintro rfl
    exact links.notString trivial
  · rw [links.rootgc, creates.tmudata]
    exact (owned.udata ((creates.allocated present).resolve_left fun same => links.notUdata a same.symm)).imp
      (List.mem_cons_of_mem _) id
  · rw [links.rootgc]
    obtain rfl | before := creates.allocated present
    · exact List.mem_cons_self
    · exact List.mem_cons_of_mem _ (owned.traversable traversable before)
  · rw [links.rootgc]
    obtain same | before := creates.allocated present
    · exact same ▸ List.mem_cons_self
    · rw [links.upval u (links.absent before)] at kind
      exact List.mem_cons_of_mem _ (owned.closedUpval before kind)
  · obtain same | before := creates.allocated present
    · exact absurd kind (links.newUpval u th level same.symm)
    · obtain ⟨inUvhead, inList, present'⟩ := owned.openUpval before ((creates.upval (links.absent before)).1 kind)
      refine ⟨uvhead ▸ inUvhead, ?_, ?_⟩
      · rw [links.thread th (links.absent present')]
        exact inList
      · rw [creates.kept present']
        exact present'
  · obtain same | before := creates.allocated present
    · rw [links.newThread th same.symm]
      exact List.nodup_nil
    · rw [links.thread th (links.absent before)]
      exact owned.openNodup before
  · obtain same | before := creates.allocated present
    · rw [links.newThread th same.symm] at member
      cases member
    · rw [links.thread th (links.absent before)] at member
      obtain ⟨here, level, kind⟩ := owned.openList before member
      rw [creates.kept here]
      exact ⟨here, level, (creates.upval (links.absent here)).2 kind⟩
  · rw [strt]
    exact owned.buckets

theorem linked (links : Links o s s') (owned : s.Owned) (linked : s.Linked) : s'.Linked := by
  have creates := links.creates owned
  have strt : s'.strt = s.strt := by rw [links.frame]
  refine ⟨?_, fun {p} member => ?_, fun {a} member => ?_, strt ▸ linked.strings, fun {a} member => ?_⟩
  · rw [links.rootgc, creates.tmudata, List.cons_append, List.nodup_cons]
    refine ⟨fun member => ?_, linked.nodup⟩
    cases List.mem_append.1 member with
    | inl inRoot => exact (linked.allocated inRoot).1 links.fresh
    | inr isUdata =>
      obtain ⟨u, -, same⟩ := List.mem_map.1 isUdata
      exact links.notUdata u same.symm
  · rw [links.rootgc] at member
    cases List.mem_cons.1 member with
    | inl head =>
      subst head
      refine ⟨creates.live_self.allocated, ?_⟩
      rintro ⟨u, th, level, same, kind⟩
      exact links.newUpval u th level same kind
    | inr tail =>
      obtain ⟨present, notOpen⟩ := linked.allocated tail
      rw [creates.kept present, creates.isOpen (links.absent present)]
      exact ⟨present, notOpen⟩
  · rw [links.rootgc] at member
    cases List.mem_cons.1 member with
    | inl head => exact links.notString (head ▸ trivial)
    | inr tail => exact linked.notString tail
  · have present := linked.interned (strt ▸ member)
    rw [creates.kept present]
    exact present

end Links

variable {table : Nat → TableObject N} {thread : Nat → ThreadObject N} {proto : Nat → ProtoObject N}
  {closure : Nat → Closure N} {upval : Nat → UpVal N}

/-- `gafqC_link`, after the fields of the new object have been set. -/
theorem Consistent.linkObject (consistent : Consistent nothing s) (fresh : s.marked o = none) (notString : ¬ o.IsString)
    (notUdata : ∀ u, o ≠ .udata u) (sameTable : ∀ a, .table a ≠ o → table a = s.table a)
    (sameThread : ∀ a, .thread a ≠ o → thread a = s.thread a) (sameProto : ∀ a, .proto a ≠ o → proto a = s.proto a)
    (sameClosure : ∀ a, .closure a ≠ o → closure a = s.closure a) (sameUpval : ∀ u, .upval u ≠ o → upval u = s.upval u)
    (newThread : ∀ a, o = .thread a → (thread a).openupval = [])
    (newUpval : ∀ u th level, o = .upval u → upval u ≠ .inStack th level)
    (refers : ∀ {r}, ({ s.link o with table, thread, proto, closure, upval } : State N).Refers o r → s.Live r) :
    let s' : State N := { s.link o with table, thread, proto, closure, upval }
    Consistent nothing s' ∧ s'.Live o ∧ Spares s s' := by
  intro s'
  have frame : s.link o = { s with
      swept := (s.linkroot o).swept, unswept := (s.linkroot o).unswept
      marked := (s.link o).marked, fixed := (s.link o).fixed } := by
    have linkroot := linkroot_frame s o
    unfold link
    generalize (s.linkroot o).swept = swept at linkroot ⊢
    generalize (s.linkroot o).unswept = unswept at linkroot ⊢
    rw [linkroot]
    rfl
  have links : Links o s s' := by
    refine ⟨fresh, notString, notUdata, ?_, colour_link s o, fun {r} isFixed => ?_, ?_, mem_unswept_linkroot o, sameTable, sameThread,
      sameProto, sameClosure, sameUpval, newThread, newUpval⟩
    · simp only [s']
      rw [frame]
    · have before : (s.linkroot o).fixed r = true := fixed_marknew isFixed
      rw [linkroot_frame] at before
      exact before
    · rw [← linkroot_rootgc]
      rfl
  have creates := links.creates consistent.owned
  exact ⟨consistent.creates creates (links.owned consistent.owned) (links.linked consistent.owned consistent.linked) refers,
    creates.live_self, creates.live⟩

end Link

/-- What follows the creation of an object. -/
structure Created (o : GCRef) (s s' : State N) : Prop where
  consistent : Consistent nothing s'
  live : s'.Live o
  spares : Spares s s'

theorem newtable_created {h : Gafq.Table N} {a : Nat} (consistent : Consistent nothing s) (fresh : s.marked (.table a) = none)
    (kept : Kept (fun _ => False) (fun _ => False) (fun _ => False) h) : Created (.table a) s (s.newtable h a) := by
  obtain ⟨consistent', live, spares⟩ := @Consistent.linkObject _ s (.table a)
    (Function.update (s.link (.table a)).table a { h }) (s.link (.table a)).thread (s.link (.table a)).proto
    (s.link (.table a)).closure (s.link (.table a)).upval consistent fresh id nofun
    (fun b other => by simp [show b ≠ a from fun same => other (same ▸ rfl)]) (fun b _ => by simp) (fun b _ => by simp)
    (fun b _ => by simp) (fun b _ => by simp) nofun nofun fun {r} refers => by
      simp only [Refers, Function.update_self] at refers
      obtain ⟨n, contents⟩ := kept
      obtain isMetatable | ⟨i, inside, isRef⟩ | ⟨i, inside, used, isRef⟩ := refers
      · cases isMetatable
      · exact absurd (contents.array i (Nat.lt_of_lt_of_le inside contents.size) r isRef) id
      · exact absurd (isRef.elim (contents.key i inside r) (contents.val i inside r)) id
  exact ⟨consistent', live, spares⟩

theorem Created.push {o : GCRef} {v : TValue N} {th : Nat} (created : Created o s s')
    (live : ∀ {r}, gcvalue v = some r → s'.Live r) : Consistent nothing (s'.push th v) :=
  push_consistent created.consistent live

theorem createtable_consistent (consistent : Consistent nothing s) (mem : Memory) (narray nhash : Nat) {a : Nat}
    (fresh : s.marked (.table a) = none) : Consistent nothing (s.createtable mem narray nhash a) := by
  have contents := new_contents (N := N) mem narray nhash
  unfold createtable
  cases ran : Table.new (N := N) mem narray nhash with
  | ok u h =>
    rw [ran] at contents
    have created := newtable_created consistent fresh contents
    refine created.push fun isRef => ?_
    cases isRef
    exact created.live
  | error e h =>
    rw [ran] at contents
    exact (newtable_created consistent fresh contents).consistent

theorem newthread_consistent {a : Nat} (consistent : Consistent nothing s) (fresh : s.marked (.thread a) = none) :
    Consistent nothing (s.newthread a) := by
  have running : s.running ≠ a := by
    rintro rfl
    exact (consistent.root .running).allocated fresh
  obtain ⟨consistent', live, spares⟩ := @Consistent.linkObject _ s (.thread a) (s.link (.thread a)).table
    (Function.update (s.link (.thread a)).thread a
      { gt := ((s.link (.thread a)).thread (s.link (.thread a)).running).gt, top := 1
        ci := [{ top := 1 + minStack, isC := true }] })
    (s.link (.thread a)).proto (s.link (.thread a)).closure (s.link (.thread a)).upval consistent fresh id nofun
    (fun b _ => by simp) (fun b other => by simp [show b ≠ a from fun same => other (same ▸ rfl)]) (fun b _ => by simp)
    (fun b _ => by simp) (fun b _ => by simp) (fun b same => by cases same; simp) nofun fun {r} refers => by
      simp only [Refers, Function.update_self, link_thread, link_running] at refers
      obtain global | ⟨i, inside, isRef⟩ := refers
      · exact consistent.closed (consistent.root .running) (.inl global)
      · cases isRef
  refine push_consistent consistent' fun isRef => ?_
  cases isRef
  exact live

theorem newproto_consistent {a : Nat} (consistent : Consistent nothing s) (fresh : s.marked (.proto a) = none) :
    Consistent nothing (s.newproto a) := by
  obtain ⟨consistent', live, spares⟩ := @Consistent.linkObject _ s (.proto a) (s.link (.proto a)).table
    (s.link (.proto a)).thread (Function.update (s.link (.proto a)).proto a {}) (s.link (.proto a)).closure
    (s.link (.proto a)).upval consistent fresh id nofun (fun b _ => by simp) (fun b _ => by simp)
    (fun b other => by simp [show b ≠ a from fun same => other (same ▸ rfl)]) (fun b _ => by simp) (fun b _ => by simp)
    nofun nofun fun {r} refers => by
      simp only [Refers, Function.update_self] at refers
      cases refers
  refine push_consistent consistent' fun isRef => ?_
  cases isRef
  exact live

/-- A new closure, of either kind. -/
theorem newclosure_created {a : Nat} {x : Closure N} (consistent : Consistent nothing s)
    (fresh : s.marked (.closure a) = none) (refs : ∀ r ∈ x.refs, s.Live r) :
    Created (.closure a) s ((s.link (.closure a)).setClosure a x) := by
  obtain ⟨consistent', live, spares⟩ := @Consistent.linkObject _ s (.closure a) (s.link (.closure a)).table
    (s.link (.closure a)).thread (s.link (.closure a)).proto (Function.update (s.link (.closure a)).closure a x)
    (s.link (.closure a)).upval consistent fresh id nofun (fun b _ => by simp) (fun b _ => by simp) (fun b _ => by simp)
    (fun b other => by simp [show b ≠ a from fun same => other (same ▸ rfl)]) (fun b _ => by simp) nofun nofun
    fun {r} refers => by
      simp only [Refers, Function.update_self] at refers
      exact refs r refers
  exact ⟨consistent', live, spares⟩

theorem newupval_created {u : Nat} (consistent : Consistent nothing s) (fresh : s.marked (.upval u) = none) :
    Created (.upval u) s (s.newupval u) := by
  obtain ⟨consistent', live, spares⟩ := @Consistent.linkObject _ s (.upval u) (s.link (.upval u)).table
    (s.link (.upval u)).thread (s.link (.upval u)).proto (s.link (.upval u)).closure
    (Function.update (s.link (.upval u)).upval u (.closed .nil)) consistent fresh id nofun (fun b _ => by simp)
    (fun b _ => by simp) (fun b _ => by simp) (fun b _ => by simp)
    (fun b other => by simp [show b ≠ u from fun same => other (same ▸ rfl)]) nofun
    (fun v th level same => by cases same; simp) fun {r} refers => by
      simp only [Refers, upvalValue, Function.update_self] at refers
      cases refers
  exact ⟨consistent', live, spares⟩

end Gafq.GC.State
