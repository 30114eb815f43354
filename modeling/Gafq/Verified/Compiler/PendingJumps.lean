import Gafq.Verified.Compiler.ParsedStatements

/-! # Jumps of compiled functions

Whatever the tokens are, the parser does nothing to the code of a function but the operations on lists of
jumps, each on lists that are pending.  In a function that is finished no jump is pending any more.
-/

namespace Gafq.Compiler

open Lexer Code Base

variable {N : Type} [GafqNumber N] {env : Env N} {fuel : Nat}

theorem sound_rulesAt (levels : Nat) : Sound (rulesAt env fuel levels) := by
  induction levels with
  | zero => exact ⟨fun _ _ _ _ _ _ _ parses => parses.failed, fun _ _ _ _ _ parses => parses.failed⟩
  | succ levels inductionHypothesis =>
    exact ⟨fun _ _ _ _ _ last => subexpr_parses inductionHypothesis last, fun _ _ _ last => chunk_parses inductionHypothesis last⟩

theorem initial_parses (tokens : List (Token N × Nat)) (eosLine nCcalls address : Nat) :
    Parses [] (Idle outermost 0) (initial tokens eosLine nCcalls address) := by
  have quiet : Quiet (newFuncState address : FuncState N) { newFuncState address with isVararg := varargIsVararg } :=
    .of_same rfl rfl rfl rfl rfl ⟨rfl, rfl, rfl⟩
  exact ⟨Tame.quiet _ _ quiet (newFuncState_idle address), .nil, by simp [initial]⟩

theorem parser_parses :
    Ensures (Parses [] (Idle outermost 0)) (parser env fuel)
      (fun _ ls => ls.prev = [] ∧ ls.fs ∈ ls.closed ∧ ∀ fs ∈ ls.closed, Finished fs) Failed := by
  refine .bind next_parses fun _ => ((sound_rulesAt _).chunk [] outermost 0 trivial).bind fun _ => .bind check_parses fun _ => ?_
  exact .bind closeFunc_main fun _ _ finished => finished

/-- Each jump of the code has been given a target once, and this is where it leads. -/
structure Patched (fs : FuncState N) : Prop where
  pending : fs.jpc = noJump ∧ fs.bl = []
  patched : ∃ c : Config N, Code.Reachable c ∧ c.fs = fs ∧ (∀ l ∈ c.pending, l = noJump) ∧
    ∀ p < fs.pc, IsJump (fs.code p) → .count p ∉ fs.events → c.targets.filter (·.1 = p) = {(p, jumpTarget fs p)}

/-- One entry with a name that occurs once. -/
theorem filter_of_nodup {α β : Type} [DecidableEq α] {xs : Multiset (α × β)} (nodup : (xs.map Prod.fst).Nodup) {a : α}
    (member : a ∈ xs.map Prod.fst) : ∃ b, (a, b) ∈ xs ∧ xs.filter (·.1 = a) = {(a, b)} := by
  obtain ⟨x, isMember, rfl⟩ := Multiset.mem_map.1 member
  refine ⟨x.2, isMember, ?_⟩
  obtain ⟨rest, rfl⟩ := Multiset.exists_cons_of_mem isMember
  rw [Multiset.map_cons, Multiset.nodup_cons] at nodup
  have others : rest.filter (·.1 = x.1) = 0 := by
    refine Multiset.filter_eq_nil.2 fun y isRest same => nodup.1 ?_
    exact same ▸ Multiset.mem_map_of_mem _ isRest
  rw [Multiset.filter_cons_of_pos (p := (·.1 = x.1)) rest rfl, others, Multiset.cons_zero]

omit [GafqNumber N] in
theorem Finished.patched {fs : FuncState N} (finished : Finished fs) : Patched fs := by
  obtain ⟨c, reachable, rfl, live, loops, bl, jpc⟩ := finished
  have none : ∀ l ∈ c.pending, l = noJump := fun l member => by
    simpa [Config.pending, FuncState.breaklists, live, loops, bl, jpc] using member
  obtain ⟨here, held, looping, acc⟩ := reachable.inv
  have all := acc.all_patched none
  refine ⟨⟨jpc, bl⟩, c, reachable, rfl, none, fun p below isJump notCount => ?_⟩
  have isTarget : p ∈ c.targets.map Prod.fst := by
    rw [all]
    exact acc.jumps.all p below isJump notCount
  obtain ⟨target, member, only⟩ := filter_of_nodup (all ▸ acc.jumps.nodup) isTarget
  rw [only, (acc.jumps.target _ member).2]

/-- In every configuration on the way of a function the pending lists are finite and share no jump, so each walk
along one ends.  The parser takes every function that it begins through such configurations only, until it is
finished or an error stops it, and then each of its jumps has been given a target exactly once. -/
theorem jumps_patched (env : Env N) (fuel : Nat) (tokens : List (Token N × Nat)) (eosLine nCcalls address : Nat) :
    (∀ c : Config N, Code.Reachable c → c.Inv ∧ c.WalksEnd) ∧
    match parser env fuel (initial tokens eosLine nCcalls address) with
    | .ok _ ls => ls.prev = [] ∧ ls.fs ∈ ls.closed ∧ ∀ fs ∈ ls.closed, Patched fs
    | .error _ ls => (∀ fs ∈ ls.fs :: ls.prev, Stopped fs) ∧ ∀ fs ∈ ls.closed, Patched fs := by
  refine ⟨fun c reachable => ⟨reachable.inv, reachable.inv.walksEnd⟩, ?_⟩
  have ended := @parser_parses N _ env fuel _ (initial_parses tokens eosLine nCcalls address)
  cases ran : parser env fuel (initial tokens eosLine nCcalls address) with
  | ok p ls =>
    rw [ran] at ended
    exact ⟨ended.1, ended.2.1, fun fs member => (ended.2.2 fs member).patched⟩
  | error e ls =>
    rw [ran] at ended
    exact ⟨ended.opened, fun fs member => (ended.closed fs member).patched⟩

end Gafq.Compiler
