import Gafq.Verified.GC.Creation

/-! # Strings and userdata

Userdata are linked behind the main thread and strings in the string table.  A string that is wanted
again while the sweep is about to free it is made white again, so what `newlstr` returns is live in
every phase.
-/

namespace Gafq.GC.State

variable {N : Type} {s s' : State N} {o p r : GCRef} {pending : GCRef → GCRef → Prop}

/-! ## Userdata -/

/-- A userdata has been put behind the main thread. -/
structure LinksUdata (env a : Nat) (s s' : State N) : Prop where
  fresh : s.marked (.udata a) = none
  frame : s' = { s with swept := s'.swept, unswept := s'.unswept, marked := s'.marked, fixed := s'.fixed, udata := s'.udata }
  colour : ∀ r, s'.colour r = if r = .udata a then some (.white s.currentwhite) else s.colour r
  fixed : ∀ {r}, s'.fixed r = true → s.fixed r = true
  rootgc : s'.rootgc.Perm (.udata a :: s.rootgc)
  unswept : ∀ {p}, p ∈ s.unswept → p ∈ s'.unswept
  udata : s'.udata = Function.update s.udata a { env }

theorem newudata_links {env a : Nat} (fresh : s.marked (.udata a) = none) (main : .thread s.mainthread ∈ s.rootgc) :
    LinksUdata env a s (s.newudata env a) := by
  generalize start : (s.marknew (.udata a)).setUdata a { env } = s₁
  have frame₁ : s₁ = { s with marked := s₁.marked, fixed := s₁.fixed, udata := s₁.udata } := by rw [← start]; rfl
  have main₁ : .thread s₁.mainthread ∈ s₁.rootgc := by
    rw [frame₁]
    exact main
  obtain ⟨perm, unswept⟩ := linkudata_rootgc (u := a) main₁
  have frame := linkudata_frame s₁ a
  have result : s.newudata env a = s₁.linkudata a := by rw [← start]; rfl
  rw [result]
  generalize s₁.linkudata a = s' at perm unswept frame
  constructor
  case fresh => exact fresh
  case frame =>
    rw [frame, frame₁]
  case colour =>
    intro r
    rw [frame]
    show s₁.colour r = _
    rw [← start]
    exact colour_marknew s _ r
  case fixed =>
    intro r isFixed
    rw [frame] at isFixed
    rw [← start] at isFixed
    exact fixed_marknew isFixed
  case rootgc =>
    have before : s₁.rootgc = s.rootgc := by rw [frame₁]; rfl
    rw [← before]
    exact perm
  case unswept =>
    intro p member
    refine unswept ?_
    rw [frame₁]
    exact member
  case udata =>
    rw [frame, ← start]
    rfl

namespace LinksUdata

variable {env a : Nat}

theorem creates (links : LinksUdata env a s s') : Creates (.udata a) s s' := by
  refine ⟨links.fresh, links.colour, links.fixed, ?_, ?_, ?_, ?_, ?_, fun root => ?_, ?_, ?_, ?_,
    fun {p r} present after => ?_, fun _ => ?_, fun _ => ?_, links.unswept, fun _ {b} member => ?_⟩
  · rw [links.frame]
  · rw [links.frame]
  · rw [links.frame]
  · rw [links.frame]
  · rw [links.frame]
  · rw [links.frame] at root
    exact root.congr rfl rfl rfl rfl
  · rw [links.frame]
  · rw [links.frame]
  · rw [links.frame]
  · cases p with
    | udata b =>
      have other : b ≠ a := by
        rintro rfl
        exact present links.fresh
      simp only [Refers, links.udata, Function.update_of_ne other] at after
      exact after
    | string | proto | closure | table | upval | thread =>
      rw [links.frame] at after
      exact after
  · rw [links.frame]
  · rw [links.frame]
  · rw [links.frame]
    exact member

theorem mem_rootgc (links : LinksUdata env a s s') : o ∈ s'.rootgc ↔ o = .udata a ∨ o ∈ s.rootgc := by
  rw [links.rootgc.mem_iff, List.mem_cons]

theorem owned (links : LinksUdata env a s s') (owned : s.Owned) : s'.Owned := by
  have creates := links.creates
  have upval : s'.upval = s.upval := by rw [links.frame]
  have thread : s'.thread = s.thread := by rw [links.frame]
  have strt : s'.strt = s.strt := by rw [links.frame]
  constructor
  · intro b present
    rw [strt]
    exact owned.string ((creates.allocated present).resolve_left (by rintro ⟨⟩))
  · intro b present
    rw [links.mem_rootgc, creates.tmudata]
    obtain same | before := creates.allocated present
    · exact .inl (.inl same)
    · exact (owned.udata before).imp .inr id
  · intro p traversable present
    rw [links.mem_rootgc]
    obtain same | before := creates.allocated present
    · exact .inl same
    · exact .inr (owned.traversable traversable before)
  · intro u v present kind
    rw [links.mem_rootgc]
    rw [upval] at kind
    exact .inr (owned.closedUpval ((creates.allocated present).resolve_left (by rintro ⟨⟩)) kind)
  · intro u th level present kind
    rw [upval] at kind
    obtain ⟨inUvhead, inList, here⟩ := owned.openUpval ((creates.allocated present).resolve_left (by rintro ⟨⟩)) kind
    rw [creates.kept here, thread, links.frame]
    exact ⟨inUvhead, inList, here⟩
  · intro th present
    rw [thread]
    exact owned.openNodup ((creates.allocated present).resolve_left (by rintro ⟨⟩))
  · intro th u present member
    rw [thread] at member
    obtain ⟨here, kind⟩ := owned.openList ((creates.allocated present).resolve_left (by rintro ⟨⟩)) member
    rw [creates.kept here, upval]
    exact ⟨here, kind⟩
  · rw [strt]
    exact owned.buckets

theorem linked (links : LinksUdata env a s s') (linked : s.Linked) (finalized : ∀ {b}, b ∈ s.tmudata → s.colour (.udata b) ≠ none) :
    s'.Linked := by
  have creates := links.creates
  have strt : s'.strt = s.strt := by rw [links.frame]
  constructor
  · rw [creates.tmudata, (links.rootgc.append_right _).nodup_iff, List.cons_append, List.nodup_cons]
    refine ⟨fun member => ?_, linked.nodup⟩
    cases List.mem_append.1 member with
    | inl inRoot => exact (linked.allocated inRoot).1 links.fresh
    | inr isTm =>
      obtain ⟨b, inList, same⟩ := List.mem_map.1 isTm
      cases same
      exact finalized inList links.fresh
  · intro p member
    obtain rfl | inRoot := links.mem_rootgc.1 member
    · refine ⟨creates.live_self.allocated, ?_⟩
      rintro ⟨u, th, level, same, -⟩
      cases same
    · obtain ⟨present, notOpen⟩ := linked.allocated inRoot
      rw [creates.kept present, creates.isOpen (creates.ne present)]
      exact ⟨present, notOpen⟩
  · intro b member
    obtain same | inRoot := links.mem_rootgc.1 member
    · cases same
    · exact linked.notString inRoot
  · rw [strt]
    exact linked.strings
  · intro b member
    rw [strt] at member
    have present := linked.interned member
    rw [creates.kept present]
    exact present

end LinksUdata

theorem newudata_created {env a : Nat} (consistent : Consistent nothing s) (fresh : s.marked (.udata a) = none)
    (live : s.Live (.table env)) : Created (.udata a) s (s.newudata env a) := by
  have main : .thread s.mainthread ∈ s.rootgc := consistent.owned.traversable trivial (consistent.root .mainthread).allocated
  have links : LinksUdata env a s (s.newudata env a) := newudata_links fresh main
  have creates := links.creates
  have finalized {b : Nat} (member : b ∈ s.tmudata) : s.colour (.udata b) ≠ none := (consistent.tmudata member).allocated
  refine ⟨consistent.creates creates (links.owned consistent.owned) (links.linked consistent.linked finalized) fun {r} refers => ?_,
    creates.live_self, creates.live⟩
  simp only [Refers, links.udata, Function.update_self] at refers
  obtain ⟨m, isMetatable, -⟩ | rfl := mem_udata_refs.1 refers
  · cases isMetatable
  · exact live

/-! ## Resurrection -/

theorem changewhite_dead (dead : s.isdead o = true) : (s.changewhite o).colour o = some (.white s.currentwhite) := by
  have colour : s.colour o = some (.white !s.currentwhite) := by simpa [isdead] using dead
  rw [changewhite, colour_paint_self, colour]
  simp

/-- A dead object is given the current white; what it refers to has to be live. -/
theorem Consistent.resurrect (consistent : Consistent nothing s) (dead : s.isdead o = true)
    (refers : ∀ {r}, s.Refers o r → s.Live r) : Created o s (s.changewhite o) := by
  have after := changewhite_dead dead
  have colour : s.colour o = some (.white !s.currentwhite) := by simpa [isdead] using dead
  have live : (s.changewhite o).Live o := live_of_white after
  have others : ∀ {r}, r ≠ o → (s.changewhite o).colour r = s.colour r := fun other => colour_paint_of_ne s _ other
  refine ⟨?_, live, fun {r} before => ?_⟩
  · refine consistent.repaint rfl rfl rfl others (by rw [colour]; rintro ⟨⟩) live refers ?_ (fun isColour => ?_)
      (fun phase => absurd colour (consistent.marking phase).noDead)
      fun phase _ => absurd colour (consistent.marking phase).noDead
    · rw [after]
      rintro ⟨⟩
    · rw [after] at isColour
      cases isColour
      exact .inl rfl
  · by_cases self : r = o
    · subst self
      exact live
    · exact (live_congr (others self) rfl).2 before

/-! ## Strings -/

theorem resizestrt_spares (s : State N) (newsize : Nat) : Spares s (s.resizestrt newsize) := by
  intro r live
  rw [resizestrt_frame]
  exact live

/-- `newlstr` before it looks at the size of the table. -/
theorem chainstring_created {str : TString} {a : Nat} (consistent : Consistent nothing s)
    (fresh : s.marked (.string a) = none) {i : Nat} (inside : i < s.strt.length) :
    Created (.string a) s
      { s.marknew (.string a) with string := Function.update s.string a str, strt := chain s.strt i a } := by
  have owned := consistent.owned
  have linked := consistent.linked
  have perm := chain_perm (a := a) inside
  generalize result : ({ s.marknew (.string a) with
      string := Function.update s.string a str, strt := chain s.strt i a } : State N) = s'
  have frame : s' = { s with marked := s'.marked, fixed := s'.fixed, string := s'.string, strt := s'.strt } := by
    rw [← result]
    rfl
  have colour : ∀ r, s'.colour r = if r = .string a then some (.white s.currentwhite) else s.colour r := by
    intro r
    rw [← result]
    exact colour_marknew s _ r
  have strt : s'.strt = chain s.strt i a := by rw [← result]
  have rootgc : s'.rootgc = s.rootgc := by rw [frame]; rfl
  have creates : Creates (.string a) s s' := by
    refine ⟨fresh, colour, fun {r} isFixed => ?_, ?_, ?_, ?_, ?_, ?_, fun root => ?_, ?_, ?_, ?_, fun {p r} _ after => ?_,
      fun _ => ?_, fun _ => ?_, fun member => ?_, fun _ {b} member => ?_⟩
    · rw [← result] at isFixed
      exact fixed_marknew isFixed
    · rw [frame]
    · rw [frame]
    · rw [frame]
    · rw [frame]
    · rw [frame]
    · rw [frame] at root
      exact root.congr rfl rfl rfl rfl
    · rw [frame]
    · rw [frame]
    · rw [frame]
    · rw [frame] at after
      cases p <;> exact after
    · rw [frame]
    · rw [frame]
    · rw [frame]
      exact member
    · rw [strt, show s'.sweepstrgc = s.sweepstrgc by rw [frame]]
      exact mem_chain_drop member
  refine ⟨consistent.creates creates ?_ ?_ nofun, creates.live_self, creates.live⟩
  · constructor
    · intro b present
      rw [strt, perm.mem_iff]
      obtain same | before := creates.allocated present
      · cases same
        exact List.mem_cons_self
      · exact List.mem_cons_of_mem _ (owned.string before)
    · intro b present
      rw [rootgc, creates.tmudata]
      exact owned.udata ((creates.allocated present).resolve_left nofun)
    · intro p traversable present
      rw [rootgc]
      refine owned.traversable traversable ((creates.allocated present).resolve_left ?_)
      rintro rfl
      exact traversable
    · intro u v present kind
      rw [rootgc]
      rw [frame] at kind
      exact owned.closedUpval ((creates.allocated present).resolve_left nofun) kind
    · intro u th level present kind
      rw [frame] at kind
      obtain ⟨inUvhead, inList, here⟩ := owned.openUpval ((creates.allocated present).resolve_left nofun) kind
      rw [creates.kept here, frame]
      exact ⟨inUvhead, inList, here⟩
    · intro th present
      rw [frame]
      exact owned.openNodup ((creates.allocated present).resolve_left nofun)
    · intro th u present member
      rw [frame] at member
      obtain ⟨here, kind⟩ := owned.openList ((creates.allocated present).resolve_left nofun) member
      rw [creates.kept here, frame]
      exact ⟨here, kind⟩
    · rw [strt, chain_length]
      exact owned.buckets
  · constructor
    · rw [rootgc, creates.tmudata]
      exact linked.nodup
    · intro p member
      rw [rootgc] at member
      obtain ⟨present, notOpen⟩ := linked.allocated member
      rw [creates.kept present, creates.isOpen (creates.ne present)]
      exact ⟨present, notOpen⟩
    · rw [rootgc]
      exact linked.notString
    · rw [strt, perm.nodup_iff, List.nodup_cons]
      exact ⟨fun member => linked.interned member fresh, linked.strings⟩
    · intro b member
      rw [strt, perm.mem_iff] at member
      cases List.mem_cons.1 member with
      | inl head =>
        rw [head, creates.white]
        nofun
      | inr tail =>
        have present := linked.interned tail
        rw [creates.kept present]
        exact present

theorem newstring_created {str : TString} {a : Nat} (consistent : Consistent nothing s)
    (fresh : s.marked (.string a) = none) : Created (.string a) s (s.newstring str a) := by
  have positive := consistent.owned.buckets
  have created := @chainstring_created _ s str a consistent fresh
    (lmod (strhash (Function.update s.string a str a)) s.strt.length) (lmod_lt positive)
  unfold newstring
  simp only
  split
  · refine ⟨resizestrt_consistent created.consistent ?_, resizestrt_spares _ _ created.live,
      fun live => resizestrt_spares _ _ (created.spares live)⟩
    simp only [chain_length]
    exact Nat.mul_pos positive (Nat.succ_pos 1)
  · exact created

/-- What `gafqS_newlstr` returns is live. -/
theorem newlstr_created (str : TString) {fresh : Nat} (consistent : Consistent nothing s)
    (unused : s.marked (.string fresh) = none) :
    Created (.string (s.newlstr str fresh).1) s (s.newlstr str fresh).2 := by
  unfold newlstr
  simp only
  split
  · next a found =>
    have inTable : a ∈ s.strt.flatten := getD_subset_flatten (List.mem_of_find?_eq_some found)
    have present := consistent.linked.interned inTable
    split
    · next dead => exact consistent.resurrect dead nofun
    · next alive => exact ⟨consistent, live_of_not_dead present (Bool.eq_false_iff.2 alive), id⟩
  · exact newstring_created consistent unused

theorem newlstr_frame (s : State N) (str : TString) (fresh : Nat) :
    (s.newlstr str fresh).2 = { s with
      marked := (s.newlstr str fresh).2.marked, fixed := (s.newlstr str fresh).2.fixed
      string := (s.newlstr str fresh).2.string, strt := (s.newlstr str fresh).2.strt } := by
  unfold newlstr
  simp only
  split
  · split <;> rfl
  · unfold newstring
    simp only
    split
    · rw [resizestrt_frame]
      rfl
    · rfl

theorem pushlstr_consistent (str : TString) {fresh : Nat} (consistent : Consistent nothing s)
    (unused : s.marked (.string fresh) = none) : Consistent nothing (s.pushlstr str fresh) := by
  have created := newlstr_created str consistent unused
  refine created.push fun isRef => ?_
  cases isRef
  exact created.live

theorem newuserdata_consistent {env a : Nat} (consistent : Consistent nothing s) (fresh : s.marked (.udata a) = none)
    (live : s.Live (.table env)) : Consistent nothing (s.newuserdata env a) := by
  have created := newudata_created consistent fresh live
  refine created.push fun isRef => ?_
  cases isRef
  exact created.live

end Gafq.GC.State
