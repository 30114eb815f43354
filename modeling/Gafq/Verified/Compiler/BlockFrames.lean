import Gafq.Compiler.Grammar
import Gafq.Verified.OperatorFrames

/-! # What blocks hold

Between two statements of a function no register is held for a value; the lists of the open blocks and
the number of local variables have changed.  The operations of `gparser.c` on blocks, variables and
loops take one such state to the next.
-/

namespace Gafq.Compiler

open Code Base

variable {N : Type} {F : CodeFrame} {L : Multiset Int} {k : Nat} {fs fs' : FuncState N} {e : ExpDesc N}

/-! ## What concerns no jump -/

/-- Code and registers are the same. -/
structure Quiet (fs fs' : FuncState N) : Prop extends Mild fs fs', SameRegs fs fs'

theorem Quiet.of_same (pc : fs'.pc = fs.pc) (jpc : fs'.jpc = fs.jpc) (bl : fs'.bl.map BlockCnt.breaklist = fs.bl.map BlockCnt.breaklist)
    (events : fs'.events = fs.events) (code : fs'.code = fs.code) (same : SameRegs fs fs') : Quiet fs fs' where
  pc := pc
  jpc := jpc
  breaklists := bl
  events := events ▸ List.Subset.refl _
  code _ := code ▸ .refl _
  toSameRegs := same

/-- What is known of a state between two operations, and stays known when code and registers are the same. -/
class Tame (Q : FuncState N → Prop) : Prop where
  quiet : ∀ fs fs', Quiet fs fs' → Q fs → Q fs'
  stopped : ∀ fs, Q fs → Stopped fs

theorem Mild.steady (mild : Mild fs fs') : Steady fs fs' := ⟨mild.pc, fun p => (mild.code p).sameOp⟩

instance : Tame (Holds F L k (N := N)) where
  quiet _ _ quiet holds := holds.quiet quiet.toMild quiet.toSameRegs
  stopped _ holds := holds.stopped

instance : Tame (Gives F L k e) where
  quiet _ _ quiet gives := ⟨gives.holds.quiet quiet.toMild quiet.toSameRegs, gives.fits.steady (Mild.steady quiet.toMild)⟩
  stopped _ gives := gives.holds.stopped

/-- Between two statements: the lists `L` are held, and no register. -/
def Idle (F : CodeFrame) (L : Multiset Int) (fs : FuncState N) : Prop :=
  ∃ nactvar breaklists, breaklists.length = F.breaklists.length ∧ Holds { F with nactvar, breaklists } L 0 fs

instance : Tame (Idle F L (N := N)) where
  quiet := by
    rintro fs fs' quiet ⟨nactvar, breaklists, length, holds⟩
    exact ⟨nactvar, breaklists, length, holds.quiet quiet.toMild quiet.toSameRegs⟩
  stopped := by
    rintro fs ⟨nactvar, breaklists, -, holds⟩
    exact holds.stopped

theorem Holds.idle (holds : Holds F L k fs) : Idle F L fs := ⟨F.nactvar, F.breaklists, rfl, holds.less (Nat.zero_le k)⟩

/-- What is done whatever the local variables and the lists of the blocks are. -/
theorem ensures_idle {α : Type} {m : CodeM N α} {post : α → FuncState N → Prop}
    (valid : ∀ nactvar breaklists, breaklists.length = F.breaklists.length →
      Ensures (Holds { F with nactvar, breaklists } L 0) m post Stopped) : Ensures (Idle F L) m post Stopped := by
  rintro fs ⟨nactvar, breaklists, length, holds⟩
  exact valid nactvar breaklists length fs holds

section

variable {Q : FuncState N → Prop} [Tame Q]

theorem modify_tame {f : FuncState N → FuncState N} (quiet : ∀ fs, Quiet fs (f fs)) :
    Ensures Q (modify f : CodeM N Unit) (fun _ => Q) Stopped :=
  .modify fun fs holds => Tame.quiet fs (f fs) (quiet fs) holds

theorem checklimit_tame {v limit : Int} {what : TString} : Ensures Q (checklimit v limit what : CodeM N Unit) (fun _ => Q) Stopped := by
  refine .get_bind fun fs holds => .ite (fun _ => ?_) fun _ => ?_
  · rintro _ rfl
    exact Tame.stopped _ holds
  · rintro _ rfl
    exact holds

theorem growVector_tame {nelems limit : Nat} {errormsg : TString} :
    Ensures Q (growVector nelems limit errormsg : CodeM N Unit) (fun _ => Q) Stopped :=
  growVector_holds Tame.stopped

/-- A new name changes no code. -/
theorem newLocalvar_tame {name : TString} {n : Nat} : Ensures Q (newLocalvar name n : CodeM N Unit) (fun _ => Q) Stopped := by
  have registered : Ensures Q (registerlocalvar name : CodeM N Nat) (fun _ => Q) Stopped := by
    refine .get_bind fun fs holds => .bind (.at_state growVector_tame holds) fun _ => ?_
    have stored (locvars : List LocVar) : Ensures Q (set { fs with locvars } : CodeM N Unit) (fun _ => Q) Stopped :=
      .set fun _ _ => Tame.quiet fs _ (.of_same rfl rfl rfl rfl rfl ⟨rfl, rfl, rfl⟩) holds
    exact (stored _).bind fun _ _ holds => holds
  refine .get_bind fun fs holds => ?_
  refine .bind (.at_state checklimit_tame holds) fun _ => registered.bind fun _ => modify_tame fun _ => ?_
  exact .of_same rfl rfl rfl rfl rfl ⟨rfl, rfl, rfl⟩

end

/-! ## Local variables -/

theorem startVars_eq (nvars : Nat) (fs : FuncState N) : ∃ locvars, startVars nvars fs = { fs with locvars } := by
  induction nvars generalizing fs with
  | zero => exact ⟨fs.locvars, rfl⟩
  | succ nvars inductionHypothesis =>
    obtain ⟨locvars, started⟩ := inductionHypothesis (modifyLocvar (fs.nactvar - (nvars + 1)) (fun v => { v with startpc := fs.pc }) fs)
    exact ⟨locvars, started⟩

theorem endVars_eq (left : Nat) (fs : FuncState N) : ∃ locvars, endVars left fs = { fs with nactvar := fs.nactvar - left, locvars } := by
  induction left generalizing fs with
  | zero => exact ⟨fs.locvars, rfl⟩
  | succ left inductionHypothesis =>
    obtain ⟨locvars, ended⟩ := inductionHypothesis
      (modifyLocvar (fs.nactvar - 1) (fun v => { v with endpc := fs.pc }) { fs with nactvar := fs.nactvar - 1 })
    refine ⟨locvars, ended.trans ?_⟩
    simp only [modifyLocvar, Nat.sub_sub, Nat.add_comm 1]

/-- The number of local variables changes. -/
theorem Holds.withLocals (holds : Holds F L k fs) {nactvar : Nat} (small : nactvar ≤ 255) (locvars : List LocVar) :
    Holds { F with nactvar } L k { fs with nactvar, locvars } := by
  obtain ⟨⟨⟨c, reachable, rfl, live, loops, blocks, plain⟩, room⟩, jmpHere⟩ := holds
  have mild : Mild c.fs { c.fs with nactvar, locvars } := ⟨rfl, rfl, rfl, List.Subset.refl _, fun _ => .refl _⟩
  refine ⟨⟨⟨_, reachable.step (.mild mild), rfl, live, loops, blocks, plain⟩, ?_⟩, jmpHere⟩
  exact ⟨rfl, small, room.held, room.freereg, room.maxstacksize⟩

theorem adjustlocalvars_holds {nvars : Nat} :
    Ensures (Holds F L k) (adjustlocalvars nvars : CodeM N Unit) (fun _ => Idle F L) Stopped := by
  refine .modify fun fs holds => ?_
  obtain ⟨locvars, started⟩ := startVars_eq nvars { fs with nactvar := (fs.nactvar + nvars) % 256 }
  have small : (fs.nactvar + nvars) % 256 ≤ 255 := by omega
  rw [started]
  exact ⟨_, F.breaklists, rfl, Holds.withLocals (holds.less (Nat.zero_le k)) small locvars⟩

theorem adjustlocalvars_idle {nvars : Nat} : Ensures (Idle F L) (adjustlocalvars nvars : CodeM N Unit) (fun _ => Idle F L) Stopped := by
  refine ensures_idle fun nactvar breaklists length => .weaken adjustlocalvars_holds (fun _ holds => holds) ?_
  rintro _ fs ⟨nactvar', breaklists', length', holds⟩
  exact ⟨nactvar', breaklists', length'.trans length, holds⟩

theorem removevars_idle {tolevel : Nat} : Ensures (Idle F L) (removevars tolevel : CodeM N Unit) (fun _ => Idle F L) Stopped := by
  refine .modify ?_
  rintro fs ⟨nactvar, breaklists, length, holds⟩
  obtain ⟨locvars, ended⟩ := endVars_eq (fs.nactvar - tolevel) fs
  have small := holds.room.locals
  rw [ended]
  exact ⟨_, breaklists, length, Holds.withLocals holds (by omega) locvars⟩

/-! ## Blocks -/

/-- The frame inside of a block. -/
def inBlock (F : CodeFrame) : CodeFrame := { F with breaklists := noJump :: F.breaklists }

theorem enterblock_idle {isbreakable : Bool} :
    Ensures (Idle F L) (enterblock isbreakable : CodeM N Unit) (fun _ => Idle (inBlock F) L) Stopped := by
  refine .modify ?_
  rintro fs ⟨nactvar, breaklists, length, ⟨⟨⟨c, reachable, rfl, live, loops, blocks, plain⟩, room⟩, jmpHere⟩⟩
  refine ⟨nactvar, noJump :: breaklists, congrArg (· + 1) length,
    ⟨⟨⟨_, reachable.step (.enterblock rfl), rfl, live, loops, ?_, plain⟩, room.same ⟨rfl, rfl, rfl⟩⟩, jmpHere⟩⟩
  exact congrArg _ blocks

/-- `leaveblock` takes the list of the innermost block. -/
theorem popblock_holds {b : BlockCnt} {previous : List BlockCnt} (holds : Holds F L k fs) (innermost : fs.bl = b :: previous) :
    Holds { F with breaklists := previous.map BlockCnt.breaklist } ({b.breaklist} + L) k { fs with bl := previous } := by
  obtain ⟨⟨⟨c, reachable, rfl, live, loops, blocks, plain⟩, room⟩, jmpHere⟩ := holds
  refine ⟨⟨⟨_, reachable.step (.leaveblock innermost), rfl, ?_, loops, rfl, plain⟩, room.same ⟨rfl, rfl, rfl⟩⟩, jmpHere⟩
  rw [← live, Multiset.singleton_add]

/-- The registers of the local variables are in use. -/
theorem freeTemporaries_idle : Ensures (Idle F L) (modify fun fs => { fs with freereg := fs.nactvar } : CodeM N Unit) (fun _ => Idle F L) Stopped := by
  refine .modify ?_
  rintro fs ⟨nactvar, breaklists, length, holds⟩
  have room := holds.room
  have small := room.locals
  refine ⟨nactvar, breaklists, length, holds.mild ⟨rfl, rfl, rfl, List.Subset.refl _, fun _ => .refl _⟩ ?_⟩
  exact ⟨room.nactvar, small, by simp only; omega, by simp only; omega, room.maxstacksize⟩

/-- An operation that keeps the local variables and the lists of the blocks. -/
theorem keeps_idle {α : Type} {m : CodeM N α} {L' : α → Multiset Int}
    (valid : ∀ F' : CodeFrame, F'.loops = F.loops → F'.last = F.last → Ensures (Holds F' L 0) m (fun a => Holds F' (L' a) 0) Stopped) :
    Ensures (Idle F L) m (fun a => Idle F (L' a)) Stopped :=
  ensures_idle fun nactvar breaklists length => (valid { F with nactvar, breaklists } rfl rfl).weaken (fun _ holds => holds)
    fun _ _ holds => ⟨nactvar, breaklists, length, holds⟩

theorem patchtohere_idle {l : Int} : Ensures (Idle F ({l} + L)) (patchtohere l : CodeM N Unit) (fun _ => Idle F L) Stopped :=
  keeps_idle fun _ _ _ => patchtohere_holds

theorem patchlist_idle {l target : Int} : Ensures (Idle F ({l} + L)) (patchlist l target : CodeM N Unit) (fun _ => Idle F L) Stopped :=
  keeps_idle fun _ _ _ => patchlist_holds

theorem jump_idle : Ensures (Idle F L) (jump : CodeM N Int) (fun j => Idle F ({j} + L)) Stopped :=
  keeps_idle fun _ _ _ => jump_holds

theorem concat_idle {l1 l2 : Int} : Ensures (Idle F ({l1} + ({l2} + L))) (Code.concat l1 l2 : CodeM N Int) (fun l => Idle F ({l} + L)) Stopped :=
  keeps_idle fun _ _ _ => concat_holds

theorem getlabel_idle : Ensures (Idle F L) (getlabel : CodeM N Nat) (fun _ => Idle F L) Stopped :=
  keeps_idle fun _ _ _ => getlabel_holds

theorem codeABC_idle {o : OpCode} {a b c : Int} (plain : o ∉ [OpCode.jmp, .forprep, .forloop]) :
    Ensures (Idle F L) (codeABC o a b c : CodeM N Nat) (fun _ => Idle F L) Stopped :=
  keeps_idle fun _ _ _ => .weaken (codeABC_holds plain) (fun _ holds => holds) fun _ _ holds => holds.1

theorem fixline_idle {line : Nat} : Ensures (Idle F L) (fixline line : CodeM N Unit) (fun _ => Idle F L) Stopped :=
  keeps_idle fun _ _ _ => fixline_holds

theorem leaveblock_idle : Ensures (Idle (inBlock F) L) (leaveblock : CodeM N Unit) (fun _ => Idle F L) Stopped := by
  refine .get_bind ?_
  rintro fs ⟨nactvar, breaklists, length, holds⟩
  split
  · rintro _ rfl
    exact holds.stopped
  · next b previous innermost =>
    have shorter : (previous.map BlockCnt.breaklist).length = F.breaklists.length := by
      obtain ⟨c, -, rfl, -, -, blocks, -⟩ := holds.listed
      have same := congrArg List.length blocks
      rw [innermost, length] at same
      simpa [inBlock] using same
    have popped : Ensures (· = fs) (set { fs with bl := previous } : CodeM N Unit) (fun _ => Idle F ({b.breaklist} + L)) Stopped :=
      .set fun _ _ => ⟨nactvar, _, shorter, popblock_holds holds innermost⟩
    have rest : Ensures (Idle F ({b.breaklist} + L))
        (modify (fun fs => { fs with freereg := fs.nactvar }) >>= fun _ => patchtohere b.breaklist : CodeM N Unit) (fun _ => Idle F L) Stopped :=
      .bind freeTemporaries_idle fun _ => patchtohere_idle
    exact popped.bind fun _ => .bind removevars_idle fun _ =>
      .ite (fun _ => .bind (codeABC_idle (by decide)) fun _ => rest) fun _ => rest

/-! ## Breaks -/

theorem findLoop_some {bl : List BlockCnt} {b : BlockCnt} {inside place : Nat} {upval upval' : Bool}
    (found : findLoop bl inside upval = some (place, b, upval')) : ∃ n, place = inside + n ∧ bl[n]? = some b := by
  induction bl generalizing inside upval with
  | nil => cases found
  | cons b' previous inductionHypothesis =>
    simp only [findLoop] at found
    split at found
    · cases found
      exact ⟨0, rfl, rfl⟩
    · obtain ⟨n, same, isBlock⟩ := inductionHypothesis found
      exact ⟨n + 1, by omega, isBlock⟩

theorem map_modify (bl : List BlockCnt) (n : Nat) (breaklist : Int) :
    (bl.modify n fun bl => { bl with breaklist }).map BlockCnt.breaklist = (bl.map BlockCnt.breaklist).set n breaklist := by
  induction bl generalizing n with
  | nil => simp
  | cons b bl inductionHypothesis =>
    cases n with
    | zero => rfl
    | succ n => simpa using inductionHypothesis n

/-- A jump is put at the end of the list of a block. -/
theorem addbreak_holds {n : Nat} {l j : Int} (isBlock : F.breaklists[n]? = some l) :
    Ensures (Holds F ({j} + L) k)
      (Code.concat l j >>= fun breaklist => modify fun fs => { fs with bl := fs.bl.modify n fun bl => { bl with breaklist } } : CodeM N Unit)
      (fun _ fs => ∃ l', Holds { F with breaklists := F.breaklists.set n l' } L k fs) Stopped := by
  intro fs holds
  obtain ⟨⟨⟨c, reachable, rfl, live, loops, blocks, plain⟩, room⟩, jmpHere⟩ := holds
  rw [Multiset.singleton_add] at live
  have found : ∃ b, c.fs.bl[n]? = some b ∧ b.breaklist = l := by
    rw [← blocks, List.getElem?_map, Option.map_eq_some_iff] at isBlock
    exact isBlock
  obtain ⟨b, isOpen, rfl⟩ := found
  have joined : Ensures (· = c.fs) (Code.concat b.breaklist j : CodeM N Int)
      (fun breaklist fs => Holds { F with breaklists := F.breaklists.set n breaklist } L k
        { fs with bl := fs.bl.modify n fun bl => { bl with breaklist } }) Stopped := by
    rintro _ rfl
    cases ran : Code.concat b.breaklist j c.fs with
    | error e fs' =>
      cases concat_error ran
      exact ⟨c, reachable, .inl rfl⟩
    | ok breaklist fs' =>
      obtain ⟨here, held, looping, acc⟩ := reachable.inv
      obtain ⟨acc', ps, rewired⟩ := acc.breakstat isOpen live ran
      refine ⟨⟨⟨_, reachable.step (.breakstat isOpen live ran), rfl, rfl, loops, ?_, rewired.plain plain⟩,
        (room.same (.of_rewired rewired)).same ⟨rfl, rfl, rfl⟩⟩, here, acc'.jpc, rewired.jmp (jmpHere.all acc.jpc)⟩
      show (fs'.bl.modify n fun bl => { bl with breaklist }).map BlockCnt.breaklist = F.breaklists.set n breaklist
      rw [rewired.bl, map_modify, ← blocks]
  exact (joined.bind fun breaklist => .modify fun _ holds => ⟨breaklist, holds⟩) c.fs rfl

theorem breakstat_idle : Ensures (Idle F L) (breakstat : CodeM N Unit) (fun _ => Idle F L) Stopped := by
  refine .get_bind ?_
  rintro fs ⟨nactvar, breaklists, length, holds⟩
  split
  · rintro _ rfl
    exact holds.stopped
  · next place b upval found =>
    obtain ⟨n, isPlace, isBlock⟩ := findLoop_some found
    have isList : breaklists[place]? = some b.breaklist := by
      obtain ⟨c, -, rfl, -, -, blocks, -⟩ := holds.listed
      rw [Nat.zero_add] at isPlace
      have blocks : c.fs.bl.map BlockCnt.breaklist = breaklists := blocks
      rw [← blocks, isPlace, List.getElem?_map, isBlock]
      rfl
    have rest : Ensures (Holds { F with nactvar, breaklists } L 0)
        (jump >>= fun j => Code.concat b.breaklist j >>= fun breaklist =>
          modify fun fs => { fs with bl := fs.bl.modify place fun bl => { bl with breaklist } } : CodeM N Unit)
        (fun _ => Idle F L) Stopped := by
      refine .bind jump_holds fun j => .weaken (addbreak_holds isList) (fun _ holds => holds) ?_
      rintro _ fs ⟨l, holds⟩
      exact ⟨nactvar, breaklists.set place l, by rw [List.length_set, length], holds⟩
    refine .ite (fun _ => ?_) fun _ => rest.at_state holds
    refine .bind (.at_state (codeABC_holds (by decide)) holds) fun _ => ?_
    exact rest.weaken (fun _ holds => holds.1) fun _ _ holds => holds

/-! ## Loops -/

/-- The end of a loop over the values of a function. -/
theorem closeFor_generic {base prep : Int} {line nvars : Nat} :
    Ensures (Idle F ({prep} + L)) (closeFor base prep line nvars false : CodeM N Unit) (fun _ => Idle F L) Stopped := by
  refine .bind patchtohere_idle fun _ => .ite (fun isnum => absurd isnum (by simp)) fun _ => ?_
  refine .bind (codeABC_idle (by decide)) fun _ => .bind fixline_idle fun _ => .ite (fun isnum => absurd isnum (by simp)) fun _ => ?_
  exact .bind jump_idle fun _ => patchlist_idle

/-- The end of a numeric loop: `OP_FORPREP` leads here and `OP_FORLOOP` back. -/
theorem closeNumeric_holds {base prep line nvars : Nat} (small : base < 256) :
    Ensures (Holds (F.inLoop prep) L k) (closeFor base prep line nvars true : CodeM N Unit) (fun _ => Holds F L k) Stopped := by
  have ahead (n : Nat) (fs fs' : FuncState N) (steady : Steady fs fs') (below : n < fs.pc) : n < fs'.pc := by
    rw [steady.pc]
    exact below
  have patched : Ensures (Holds (F.inLoop prep) L k) (patchtohere prep : CodeM N Unit) (fun _ fs => Ready F L k fs ∧ prep < fs.pc) Stopped :=
    .weaken (Keeps.carry patchtohere_keeps (ahead prep) patchtohere_loop) (fun _ holds => ⟨holds, holds.loop_lt⟩) fun _ _ holds => holds
  have coded : Ensures (fun fs => Ready F L k fs ∧ prep < fs.pc) (codeAsBx .forloop base noJump : CodeM N Nat)
      (fun p fs => Holds (F.inLoop p) L k fs ∧ prep + 1 < fs.pc) Stopped := by
    refine .weaken (codeLoop_holds small (.inr rfl) (ahead prep)) (fun _ ready => ready) ?_
    rintro p fs ⟨holds, fs₀, below, rfl, pc⟩
    exact ⟨holds, by omega⟩
  have fixed (p : Nat) : Ensures (fun fs => Holds (F.inLoop p) L k fs ∧ prep + 1 < fs.pc) (fixline line : CodeM N Unit)
      (fun _ fs => Holds (F.inLoop p) L k fs ∧ prep + 1 < fs.pc) Stopped := by
    have keeps : Keeps (fixline line : CodeM N Unit) := .modify fun _ => ⟨rfl, fun _ => .inl rfl⟩
    exact keeps.carry (ahead (prep + 1)) fixline_holds
  refine patched.bind fun _ => .ite (fun _ => ?_) fun other => absurd rfl other
  refine coded.bind fun p => (fixed p).bind fun _ => .ite (fun _ => ?_) fun other => absurd rfl other
  have back : Ensures (fun fs => Holds (F.inLoop p) L k fs ∧ prep + 1 < fs.pc) (patchlist p (prep + 1) : CodeM N Unit)
      (fun _ => Holds F L k) Stopped := by
    refine .get_bind fun fs holds => .ite (fun here => ?_) fun _ => .at_state patchlistaux_loop holds.1
    have := holds.2
    omega
  exact back

theorem closeFor_numeric {base prep line nvars : Nat} (small : base < 256) :
    Ensures (Idle (F.inLoop prep) L) (closeFor base prep line nvars true : CodeM N Unit) (fun _ => Idle F L) Stopped :=
  ensures_idle fun nactvar breaklists length => .weaken (closeNumeric_holds (F := { F with nactvar, breaklists }) small)
    (fun _ holds => holds) fun _ _ holds => ⟨nactvar, breaklists, length, holds⟩

/-- The jump into a numeric loop. -/
theorem forprep_idle {base : Nat} (small : base < 256) :
    Ensures (Idle F L) (codeAsBx .forprep base noJump : CodeM N Nat) (fun p => Idle (F.inLoop p) L) Stopped := by
  refine ensures_idle fun nactvar breaklists length => ?_
  refine .weaken (codeLoop_holds (F := { F with nactvar, breaklists }) (P := fun _ => True) small (.inl rfl) fun _ _ _ known => known)
    (fun _ holds => ⟨holds.toReady, trivial⟩) fun _ _ holds => ⟨nactvar, breaklists, length, holds.1⟩

/-! ## Closures -/

theorem codeUpvalues_holds (upvalues : List UpvalDesc) : Ensures (Holds F L k) (codeUpvalues upvalues : CodeM N Unit) (fun _ => Holds F L k) Stopped := by
  induction upvalues with
  | nil => exact fun _ holds => holds
  | cons u upvalues inductionHypothesis =>
    have plain : (if u.k = .vlocal then OpCode.move else .getupval) ∉ [OpCode.jmp, .forprep, .forloop] := by
      split <;> decide
    exact .bind (codeABC_holds plain) fun _ => inductionHypothesis.weaken (fun _ holds => holds.1) fun _ _ holds => holds

section

variable [GafqNumber N] {env : Env N}

/-- The closure of a function that has been compiled; its upvalues follow the instruction. -/
theorem pushclosure_holds {f : Proto} {func : FuncState N} :
    Ensures (Holds F L k) (pushclosure f func) (fun e => Gives F L k e) Stopped := by
  refine .get_bind fun fs holds => .bind (.at_state growVector_tame holds) fun _ => ?_
  have stored (p : List Proto) : Ensures (Holds F L k) (set { fs with p } : CodeM N Unit) (fun _ => Holds F L k) Stopped :=
    .set fun _ _ => Tame.quiet fs _ (.of_same rfl rfl rfl rfl rfl ⟨rfl, rfl, rfl⟩) holds
  refine (stored _).bind fun _ => .bind (codeABx_holds (by decide)) fun info => ?_
  have closed : Ensures (fun fs' => Holds F L k fs' ∧ Coded (instrABx .closure 0 fs.p.length) info fs') (codeUpvalues func.upvalues : CodeM N Unit)
      (fun _ => Holds (F.pin info) L k) Stopped := by
    refine .weaken (codeUpvalues_holds func.upvalues) ?_ fun _ _ holds => holds
    rintro fs' ⟨holds, coded⟩
    refine holds.pin (by have := coded.pc; omega) ?_
    rw [coded.code]
    exact free_of_opcode (opcode?_instrABx ..) (by decide)
  exact closed.bind fun _ fs holds => holds.unpin.relocable holds.pinned.2

end

end Gafq.Compiler
