import Gafq.Lex

/-! # The lexer stops at the end of its stream

No function of the lexer calls `next` when the current character is `EOZ`, so `zgetc` is never used after
the end of the stream.  Every iteration of a loop calls `next` at least once, so as much fuel as there are
characters is enough.
-/

namespace Gafq.Lexer

open Base Program

variable {N : Type} {ls : LexState N} {togo : Nat} {stuck : Prop}

/-- The current character is `EOZ` when nothing is to be got. -/
def Synced (togo : Nat) (ls : LexState N) : Prop := ls.current = none ↔ togo = 0

/-- The computation is careful; if it runs out of fuel then `stuck` holds. -/
abbrev Stops {α : Type} (stuck : Prop) (m : LexM α) (togo : Nat) (post : Nat → α → Prop) : Prop :=
  m.Careful (fun e => e = .outOfFuel → stuck) post togo

/-- What the functions that read leave: not more than there was. -/
def Reads (togo : Nat) (togo' : Nat) (ls : LexState N) : Prop := togo' ≤ togo ∧ Synced togo' ls

/-- Less than there was. -/
def Advances (togo : Nat) (togo' : Nat) (ls : LexState N) : Prop := togo' < togo ∧ Synced togo' ls

theorem Synced.pos {c : UInt8} (synced : Synced togo ls) (here : ls.current = some c) : 0 < togo := by
  by_contra none
  rw [synced.2 (by omega)] at here
  cases here

theorem Synced.pos_of_is {f : UInt8 → Bool} (synced : Synced togo ls) (holds : ls.currentIs f = true) : 0 < togo := by
  cases here : ls.current with
  | none => simp [LexState.currentIs, here] at holds
  | some c => exact synced.pos here

/-! ## Characters -/

theorem next_stops (more : 0 < togo) : Stops stuck (next ls) togo (Advances togo) := by
  match togo, more with
  | 1, _ => exact ⟨Nat.one_pos, by simp [Synced]⟩
  | togo + 2, _ => exact fun b => ⟨Nat.lt_succ_self _, by simp [Synced]⟩

theorem save_stops (synced : Synced togo ls) (c : UInt8) : Stops stuck (save ls c) togo fun togo' ls => togo' = togo ∧ Synced togo ls := by
  unfold save
  apply Careful.ite
  · intro _
    apply Careful.ite
    · exact fun _ => nofun
    · exact fun _ => ⟨rfl, synced⟩
  · exact fun _ => ⟨rfl, synced⟩

theorem saveAndNext_stops (synced : Synced togo ls) (more : 0 < togo) : Stops stuck (saveAndNext ls) togo (Advances togo) := by
  apply (save_stops synced _).bind
  rintro _ ls ⟨rfl, _⟩
  exact next_stops more

theorem txtToken_stops (synced : Synced togo ls) (token : Nat) : Stops stuck (txtToken ls token) togo fun _ _ => True := by
  unfold txtToken
  apply Careful.ite
  · intro _
    apply (save_stops synced 0).bind
    exact fun _ _ _ => trivial
  · exact fun _ => trivial

theorem lexerror_stops {α : Type} {post : Nat → α → Prop} (synced : Synced togo ls) (msg : String) (token : Nat) :
    Stops stuck (lexerror ls msg token) togo post := by
  apply Careful.ite
  · exact fun _ => nofun
  · intro _
    apply (txtToken_stops synced token).bind
    exact fun _ _ _ => nofun

theorem inclinenumber_stops (more : 0 < togo) : Stops stuck (inclinenumber ls) togo (Advances togo) := by
  unfold inclinenumber
  apply (next_stops more).bind
  rintro togo' ls ⟨less, synced⟩
  have second : ∀ old, Stops stuck (if ls.currIsNewline ∧ ls.current ≠ old then next ls else pure ls) togo' (Reads togo') := by
    intro old
    apply Careful.ite
    · intro isPair
      apply (next_stops (synced.pos_of_is isPair.1)).weaken
      exact fun _ _ reads => ⟨by have := reads.1; omega, reads.2⟩
    · exact fun _ => ⟨Nat.le_refl _, synced⟩
  apply (second _).bind
  rintro togo'' ls ⟨le, synced⟩
  apply Careful.ite
  · intro _
    apply lexerror_stops
    exact synced
  · exact fun _ => ⟨by omega, synced⟩

theorem checkNext_stops (synced : Synced togo ls) (set : String) (bytesOf : 255 ∉ bytes set) :
    Stops stuck (checkNext ls set) togo fun togo' r => Reads togo togo' r.2 := by
  apply Careful.ite
  · intro member
    have more : 0 < togo := by
      by_contra none
      have atEnd := synced.2 (by omega)
      simp [LexState.currentChar, atEnd, bytesOf] at member
    apply (saveAndNext_stops synced more).bind
    exact fun togo' ls advances => ⟨Nat.le_of_lt advances.1, advances.2⟩
  · exact fun _ => ⟨Nat.le_refl _, synced⟩

/-! ## Loops -/

variable {env : Library N} {fuel : Nat}

/-- The rest of a computation that has read something. -/
theorem Reads.trans {togo' togo'' : Nat} (le : togo' ≤ togo) (reads : Reads togo' togo'' ls) : Reads togo togo'' ls :=
  ⟨Nat.le_trans reads.1 le, reads.2⟩

theorem Advances.reads {togo' : Nat} (advances : Advances togo togo' ls) : Reads togo togo' ls :=
  ⟨Nat.le_of_lt advances.1, advances.2⟩

theorem saveWhile_stops (f : UInt8 → Bool) : ∀ {fuel togo : Nat} {ls : LexState N}, (togo < fuel ∨ stuck) → Synced togo ls →
    Stops stuck (saveWhile f fuel ls) togo (Reads togo)
  | 0, _, _, enough, _ => fun _ => enough.resolve_left (Nat.not_lt_zero _)
  | fuel + 1, togo, ls, enough, synced => by
    unfold saveWhile
    apply Careful.ite
    · intro holds
      apply (saveAndNext_stops synced (synced.pos_of_is holds)).bind
      rintro togo' ls ⟨less, synced⟩
      apply (saveWhile_stops f (enough.imp_left (by omega)) synced).weaken
      exact fun togo'' ls reads => reads.trans (Nat.le_of_lt less)
    · exact fun _ => ⟨Nat.le_refl _, synced⟩

theorem skipSepLoop_stops : ∀ {fuel togo : Nat} {ls : LexState N} {count : Int}, (togo < fuel ∨ stuck) → Synced togo ls →
    0 ≤ count → Stops stuck (skipSepLoop fuel ls count) togo fun togo' r => Reads togo togo' r.2 ∧ 0 ≤ r.1
  | 0, _, _, _, enough, _, _ => fun _ => enough.resolve_left (Nat.not_lt_zero _)
  | fuel + 1, togo, ls, count, enough, synced, counted => by
    unfold skipSepLoop
    apply Careful.ite
    · intro isEqual
      apply (saveAndNext_stops synced (synced.pos isEqual)).bind
      rintro togo' ls ⟨less, synced⟩
      apply Careful.ite
      · intro _
        apply (skipSepLoop_stops (enough.imp_left (by omega)) synced (by omega)).weaken
        exact fun togo'' r reads => ⟨reads.1.trans (Nat.le_of_lt less), reads.2⟩
      · exact fun _ => nofun
    · exact fun _ => ⟨⟨Nat.le_refl _, synced⟩, counted⟩

/-- After a separator that is not the beginning of something else, another bracket follows. -/
theorem skipSep_stops (enough : togo < fuel ∨ stuck) (synced : Synced togo ls) (more : 0 < togo) :
    Stops stuck (skipSep fuel ls) togo fun togo' r => Advances togo togo' r.2 ∧ (0 ≤ r.1 → 0 < togo') := by
  have isBracket : ls.current ≠ none := fun atEnd => by
    have none := synced.1 atEnd
    omega
  unfold skipSep
  apply (saveAndNext_stops synced more).bind
  rintro togo' ls' ⟨less, synced'⟩
  apply (skipSepLoop_stops (enough.imp_left (by omega)) synced' (Int.le_refl 0)).bind
  rintro togo'' ⟨count, ls''⟩ ⟨⟨le, synced''⟩, counted⟩
  refine ⟨⟨Nat.lt_of_le_of_lt le less, synced''⟩, fun nonneg => ?_⟩
  by_cases same : ls''.current = ls.current
  · by_contra none
    exact isBracket (same ▸ synced''.2 (by omega))
  · simp only at nonneg counted
    rw [if_neg same] at nonneg
    omega

theorem longStringLoop_stops (comment : Bool) {sep : Int} (isSep : 0 ≤ sep) : ∀ {left togo : Nat} {ls : LexState N},
    (togo < fuel ∨ stuck) → (togo < left ∨ stuck) → Synced togo ls →
    Stops stuck (longStringLoop fuel comment sep left ls) togo (Reads togo)
  | 0, _, _, _, enough, _ => fun _ => enough.resolve_left (Nat.not_lt_zero _)
  | left + 1, togo, ls, enough, enough', synced => by
    -- the next iterations
    have goOn : ∀ {togo' : Nat} {ls' : LexState N}, togo' < togo → Synced togo' ls' →
        Stops stuck (longStringLoop fuel comment sep left ls') togo' (Reads togo) := by
      intro togo' ls' less synced'
      apply (longStringLoop_stops comment isSep (enough.imp_left (by omega)) (enough'.imp_left (by omega)) synced').weaken
      exact fun togo'' ls reads => reads.trans (Nat.le_of_lt less)
    unfold longStringLoop
    cases here : ls.current with
    | none => exact lexerror_stops synced _ _
    | some c =>
      have more := synced.pos here
      simp only
      apply Careful.ite
      · intro _
        apply (skipSep_stops enough synced more).bind
        rintro togo' ⟨count, ls'⟩ ⟨⟨less, synced'⟩, bracket⟩
        apply Careful.ite
        · intro isSame
          apply (saveAndNext_stops synced' (bracket (by simp only at isSame ⊢; omega))).bind
          rintro togo'' ls'' ⟨less', synced''⟩
          apply Careful.ite
          · exact fun _ => lexerror_stops synced'' _ _
          · exact fun _ => goOn (Nat.lt_trans less' less) synced''
        · exact fun _ => goOn less synced'
      · intro _
        apply Careful.ite
        · intro _
          apply (skipSep_stops enough synced more).bind
          rintro togo' ⟨count, ls'⟩ ⟨⟨less, synced'⟩, bracket⟩
          apply Careful.ite
          · intro isSame
            apply (saveAndNext_stops synced' (bracket (by simp only at isSame ⊢; omega))).weaken
            exact fun togo'' ls advances => advances.reads.trans (Nat.le_of_lt less)
          · exact fun _ => goOn less synced'
        · intro _
          apply Careful.ite
          · intro _
            apply (save_stops synced _).bind
            rintro _ ls' ⟨rfl, -⟩
            apply (inclinenumber_stops more).bind
            rintro togo' ls'' ⟨less, synced''⟩
            apply goOn less
            split <;> exact synced''
          · intro _
            have reads : Stops stuck (if comment = true then next ls else saveAndNext ls) togo (Advances togo) :=
              Careful.ite (fun _ => next_stops more) fun _ => saveAndNext_stops synced more
            apply reads.bind
            exact fun togo' ls' advances => goOn advances.1 advances.2

theorem readLongString_stops (comment : Bool) {sep : Int} (isSep : 0 ≤ sep) (enough : togo < fuel ∨ stuck) (synced : Synced togo ls)
    (more : 0 < togo) : Stops stuck (readLongString fuel ls comment sep) togo fun togo' r => Advances togo togo' r.2 := by
  unfold readLongString
  apply (saveAndNext_stops synced more).bind
  rintro togo' ls' ⟨less, synced'⟩
  have newline : Stops stuck (if ls'.currIsNewline then inclinenumber ls' else pure ls') togo' (Reads togo') := by
    apply Careful.ite
    · intro isNewline
      apply (inclinenumber_stops (synced'.pos_of_is isNewline)).weaken
      exact fun togo'' ls advances => advances.reads
    · exact fun _ => ⟨Nat.le_refl _, synced'⟩
  apply newline.bind
  rintro togo'' ls'' ⟨le, synced''⟩
  apply (longStringLoop_stops comment isSep (enough.imp_left (by omega)) (enough.imp_left (by omega)) synced'').bind
  rintro togo''' ls''' ⟨le', synced'''⟩
  apply Careful.ite
  · exact fun _ => ⟨by omega, synced'''⟩
  · exact fun _ => nofun

/-! ## Strings -/

theorem decimalEscape_stops : ∀ {left togo c : Nat} {ls : LexState N}, Synced togo ls →
    Stops stuck (decimalEscape left ls c) togo fun togo' r => Reads togo togo' r.2
  | 0, _, _, _, synced => ⟨Nat.le_refl _, synced⟩
  | left + 1, togo, c, ls, synced => by
    unfold decimalEscape
    apply Careful.ite
    · intro isDigit
      apply (next_stops (synced.pos_of_is isDigit)).bind
      rintro togo' ls' ⟨less, synced'⟩
      apply (decimalEscape_stops synced').weaken
      exact fun togo'' r reads => reads.trans (Nat.le_of_lt less)
    · exact fun _ => ⟨Nat.le_refl _, synced⟩

theorem readEscape_stops (synced : Synced togo ls) : Stops stuck (readEscape ls) togo (Reads togo) := by
  unfold readEscape
  cases here : ls.current with
  | none => exact ⟨Nat.le_refl _, synced⟩
  | some e =>
    have more := synced.pos here
    simp only
    cases escapes.lookup e with
    | some c =>
      apply (save_stops synced c).bind
      rintro _ ls' ⟨rfl, -⟩
      exact (next_stops more).weaken fun _ _ advances => advances.reads
    | none =>
      apply Careful.ite
      · intro _
        apply (save_stops synced _).bind
        rintro _ ls' ⟨rfl, -⟩
        exact (inclinenumber_stops more).weaken fun _ _ advances => advances.reads
      · intro _
        apply Careful.ite
        · exact fun _ => (saveAndNext_stops synced more).weaken fun _ _ advances => advances.reads
        · intro _
          apply (decimalEscape_stops synced).bind
          rintro togo' ⟨c, ls'⟩ ⟨le, synced'⟩
          apply Careful.ite
          · exact fun _ => lexerror_stops synced' _ _
          · intro _
            apply (save_stops synced' _).weaken
            rintro _ ls'' ⟨rfl, synced''⟩
            exact ⟨le, synced''⟩

theorem stringLoop_stops (del : UInt8) : ∀ {left togo : Nat} {ls : LexState N}, (togo < left ∨ stuck) → Synced togo ls →
    Stops stuck (stringLoop del left ls) togo fun togo' ls' => Reads togo togo' ls' ∧ 0 < togo'
  | 0, _, _, enough, _ => fun _ => enough.resolve_left (Nat.not_lt_zero _)
  | left + 1, togo, ls, enough, synced => by
    have goOn : ∀ {togo' : Nat} {ls' : LexState N}, togo' < togo → Synced togo' ls' →
        Stops stuck (stringLoop del left ls') togo' fun togo'' ls'' => Reads togo togo'' ls'' ∧ 0 < togo'' := by
      intro togo' ls' less synced'
      apply (stringLoop_stops del (enough.imp_left (by omega)) synced').weaken
      exact fun togo'' ls reads => ⟨reads.1.trans (Nat.le_of_lt less), reads.2⟩
    unfold stringLoop
    apply Careful.ite
    · exact fun isEnd => ⟨⟨Nat.le_refl _, synced⟩, synced.pos isEnd⟩
    · intro _
      cases here : ls.current with
      | none => exact lexerror_stops synced _ _
      | some c =>
        have more := synced.pos here
        simp only
        apply Careful.ite
        · exact fun _ => lexerror_stops synced _ _
        · intro _
          apply Careful.ite
          · intro _
            apply (next_stops more).bind
            rintro togo' ls' ⟨less, synced'⟩
            apply (readEscape_stops synced').bind
            rintro togo'' ls'' ⟨le, synced''⟩
            exact goOn (by omega) synced''
          · intro _
            apply (saveAndNext_stops synced more).bind
            exact fun togo' ls' advances => goOn advances.1 advances.2

theorem readString_stops (del : UInt8) (enough : togo < fuel ∨ stuck) (synced : Synced togo ls) (more : 0 < togo) :
    Stops stuck (readString fuel ls del) togo fun togo' r => Advances togo togo' r.2 := by
  unfold readString
  apply (saveAndNext_stops synced more).bind
  rintro togo' ls' ⟨less, synced'⟩
  apply (stringLoop_stops del (enough.imp_left (by omega)) synced').bind
  rintro togo'' ls'' ⟨⟨le, synced''⟩, more'⟩
  apply (saveAndNext_stops synced'' more').bind
  rintro togo''' ls''' ⟨less', synced'''⟩
  exact ⟨by omega, synced'''⟩

/-! ## Numerals -/

theorem trydecpoint_stops (synced : Synced togo ls) :
    Stops stuck (trydecpoint env ls) togo fun togo' r => Reads togo togo' r.2 := by
  unfold trydecpoint
  simp only
  split
  · exact ⟨Nat.le_refl _, synced⟩
  · apply lexerror_stops
    exact synced

theorem readNumeral_stops (enough : togo < fuel ∨ stuck) (synced : Synced togo ls) (more : 0 < togo) :
    Stops stuck (readNumeral env fuel ls) togo fun togo' r => Advances togo togo' r.2 := by
  unfold readNumeral
  apply (saveAndNext_stops synced more).bind
  rintro t₁ ls₁ ⟨less, synced₁⟩
  apply (saveWhile_stops _ (enough.imp_left (by omega)) synced₁).bind
  rintro t₂ ls₂ ⟨le₂, synced₂⟩
  apply (checkNext_stops synced₂ "Ee" (by decide)).bind
  rintro t₃ ⟨exponent, ls₃⟩ ⟨le₃, synced₃⟩
  have sign : Stops stuck (if exponent then checkNext ls₃ "+-" else pure (false, ls₃)) t₃ fun togo' r => Reads t₃ togo' r.2 :=
    Careful.ite (fun _ => checkNext_stops synced₃ "+-" (by decide)) fun _ => ⟨Nat.le_refl _, synced₃⟩
  apply sign.bind
  rintro t₄ ⟨_, ls₄⟩ ⟨le₄, synced₄⟩
  apply (saveWhile_stops _ (enough.imp_left (by omega)) synced₄).bind
  rintro t₅ ls₅ ⟨le₅, synced₅⟩
  apply (save_stops synced₅ 0).bind
  rintro _ ls₆ ⟨rfl, synced₆⟩
  simp only
  split
  · exact ⟨by omega, synced₆⟩
  · apply (trydecpoint_stops (by exact synced₆)).weaken
    exact fun t r reads => ⟨by have := reads.1; omega, reads.2⟩

/-! ## Tokens -/

theorem skipLine_stops : ∀ {fuel togo : Nat} {ls : LexState N}, (togo < fuel ∨ stuck) → Synced togo ls →
    Stops stuck (skipLine fuel ls) togo (Reads togo)
  | 0, _, _, enough, _ => fun _ => enough.resolve_left (Nat.not_lt_zero _)
  | fuel + 1, togo, ls, enough, synced => by
    unfold skipLine
    apply Careful.ite
    · intro goesOn
      apply (next_stops (Nat.pos_of_ne_zero fun none => goesOn.2 (synced.2 none))).bind
      rintro togo' ls ⟨less, synced⟩
      apply (skipLine_stops (enough.imp_left (by omega)) synced).weaken
      exact fun togo'' ls reads => reads.trans (Nat.le_of_lt less)
    · exact fun _ => ⟨Nat.le_refl _, synced⟩

theorem readComment_stops (enough : togo < fuel ∨ stuck) (synced : Synced togo ls) :
    Stops stuck (readComment fuel ls) togo (Reads togo) := by
  apply Careful.ite
  · intro isBracket
    apply (skipSep_stops enough synced (synced.pos isBracket)).bind
    rintro togo' ⟨sep, ls'⟩ ⟨⟨less, synced'⟩, bracket⟩
    have enough' : togo' < fuel ∨ stuck := enough.imp_left (by omega)
    apply Careful.ite
    · intro isSep
      apply (readLongString_stops true isSep enough' (by exact synced') (bracket isSep)).bind
      rintro togo'' ⟨_, ls''⟩ ⟨less', synced''⟩
      exact ⟨by omega, synced''⟩
    · intro _
      apply (skipLine_stops enough' (by exact synced')).weaken
      exact fun togo'' ls reads => reads.trans (Nat.le_of_lt less)
  · exact fun _ => skipLine_stops enough synced

theorem orEqual_stops (more : 0 < togo) (c : UInt8) (withEqual : Nat) :
    Stops stuck (orEqual ls c withEqual) togo fun togo' r => Advances togo togo' r.2 := by
  unfold orEqual
  apply (next_stops more).bind
  rintro togo' ls' ⟨less, synced'⟩
  apply Careful.ite
  · exact fun _ => ⟨less, synced'⟩
  · intro isEqual
    apply (next_stops (synced'.pos (not_not.1 isEqual))).bind
    rintro togo'' ls'' ⟨less', synced''⟩
    exact ⟨by omega, synced''⟩

theorem glexLoop_stops : ∀ {left togo : Nat} {ls : LexState N} {seminfo : SemInfo N}, (togo < fuel ∨ stuck) →
    (togo < left ∨ stuck) → Synced togo ls →
    Stops stuck (glexLoop env fuel left ls seminfo) togo fun togo' r => Reads togo togo' r.2
  | 0, _, _, _, _, enough, _ => fun _ => enough.resolve_left (Nat.not_lt_zero _)
  | left + 1, togo, ls, seminfo, enough, enough', synced => by
    have goOn : ∀ {togo' : Nat} {ls' : LexState N}, togo' < togo → Synced togo' ls' →
        Stops stuck (glexLoop env fuel left ls' seminfo) togo' fun togo'' r => Reads togo togo'' r.2 := by
      intro togo' ls' less synced'
      apply (glexLoop_stops (enough.imp_left (by omega)) (enough'.imp_left (by omega)) synced').weaken
      exact fun togo'' r reads => reads.trans (Nat.le_of_lt less)
    unfold glexLoop
    cases here : ls.current with
    | none => exact ⟨Nat.le_refl _, synced⟩
    | some c =>
      have more := synced.pos here
      have oneOrTwo : ∀ withEqual, Stops stuck
          (orEqual ls c withEqual >>= fun r => pure ((⟨r.1, seminfo⟩ : Token N), r.2)) togo fun togo' r => Reads togo togo' r.2 :=
        fun withEqual => (orEqual_stops more c withEqual).bind fun togo' r advances => advances.reads
      have numeral : ∀ {togo' : Nat} {ls' : LexState N}, togo' ≤ togo → 0 < togo' → Synced togo' ls' → Stops stuck
          (readNumeral env fuel ls' >>= fun r => pure ((⟨tkNumber, .r r.1⟩ : Token N), r.2)) togo' fun togo'' r => Reads togo togo'' r.2 :=
        fun le more' synced' => (readNumeral_stops (enough.imp_left (by omega)) synced' more').bind
          fun togo'' r advances => advances.reads.trans le
      simp only
      -- the cases of the `switch', in its order
      refine Careful.ite (fun _ => ?_) fun _ => ?_
      · apply (inclinenumber_stops more).bind
        exact fun togo' ls' advances => goOn advances.1 advances.2
      refine Careful.ite (fun _ => ?_) fun _ => ?_
      · apply (next_stops more).bind
        rintro togo' ls' ⟨less, synced'⟩
        apply Careful.ite
        · exact fun _ => ⟨Nat.le_of_lt less, synced'⟩
        · intro isComment
          apply (next_stops (synced'.pos (not_not.1 isComment))).bind
          rintro togo'' ls'' ⟨less', synced''⟩
          apply (readComment_stops (enough.imp_left (by omega)) synced'').bind
          rintro togo''' ls''' ⟨le, synced'''⟩
          exact goOn (by omega) synced'''
      refine Careful.ite (fun _ => ?_) fun _ => ?_
      · apply (skipSep_stops enough synced more).bind
        rintro togo' ⟨sep, ls'⟩ ⟨⟨less, synced'⟩, bracket⟩
        apply Careful.ite
        · intro isSep
          apply (readLongString_stops false isSep (enough.imp_left (by omega)) synced' (bracket isSep)).bind
          exact fun togo'' r advances => advances.reads.trans (Nat.le_of_lt less)
        · intro _
          apply Careful.ite
          · exact fun _ => ⟨Nat.le_of_lt less, synced'⟩
          · exact fun _ => lexerror_stops synced' _ _
      refine Careful.ite (fun _ => oneOrTwo tkEq) fun _ => ?_
      refine Careful.ite (fun _ => oneOrTwo tkLe) fun _ => ?_
      refine Careful.ite (fun _ => oneOrTwo tkGe) fun _ => ?_
      refine Careful.ite (fun _ => oneOrTwo tkNe) fun _ => ?_
      refine Careful.ite (fun _ => ?_) fun _ => ?_
      · apply (readString_stops c enough synced more).bind
        exact fun togo' r advances => advances.reads
      refine Careful.ite (fun _ => ?_) fun _ => ?_
      · apply (saveAndNext_stops synced more).bind
        rintro togo' ls' ⟨less, synced'⟩
        apply (checkNext_stops synced' "." (by decide)).bind
        rintro togo'' ⟨second, ls''⟩ ⟨le, synced''⟩
        apply Careful.ite
        · intro _
          apply (checkNext_stops synced'' "." (by decide)).bind
          rintro togo''' ⟨third, ls'''⟩ ⟨le', synced'''⟩
          exact ⟨by omega, synced'''⟩
        · intro _
          apply Careful.ite
          · exact fun _ => ⟨by omega, synced''⟩
          · intro isDigit
            exact numeral (by omega) (synced''.pos_of_is (by simpa using isDigit)) synced''
      refine Careful.ite (fun _ => ?_) fun _ => ?_
      · apply (next_stops more).bind
        exact fun togo' ls' advances => goOn advances.1 advances.2
      refine Careful.ite (fun _ => numeral (Nat.le_refl _) more synced) fun _ => ?_
      refine Careful.ite (fun _ => ?_) fun _ => ?_
      · apply (saveAndNext_stops synced more).bind
        rintro togo' ls' ⟨less, synced'⟩
        apply (saveWhile_stops _ (enough.imp_left (by omega)) synced').bind
        rintro togo'' ls'' ⟨le, synced''⟩
        split <;> exact ⟨by omega, synced''⟩
      · apply (next_stops more).bind
        exact fun togo' ls' advances => advances.reads

theorem glex_stops {seminfo : SemInfo N} (enough : togo < fuel ∨ stuck) (synced : Synced togo ls) :
    Stops stuck (glex env fuel ls seminfo) togo fun togo' r => Reads togo togo' r.2 :=
  glexLoop_stops enough enough synced

theorem gafqXNext_stops (enough : togo < fuel ∨ stuck) (synced : Synced togo ls) :
    Stops stuck (gafqXNext env fuel ls) togo (Reads togo) := by
  apply Careful.ite
  · exact fun _ => ⟨Nat.le_refl _, synced⟩
  · intro _
    apply (glex_stops enough (by exact synced)).bind
    exact fun togo' r reads => reads

theorem gafqXLookahead_stops (enough : togo < fuel ∨ stuck) (synced : Synced togo ls) :
    Stops stuck (gafqXLookahead env fuel ls) togo (Reads togo) := by
  apply (glex_stops enough synced).bind
  exact fun togo' r reads => reads

theorem setinput_stops (more : 0 < togo) : Stops stuck (setinput ls) togo (Reads togo) :=
  (next_stops more).weaken fun _ _ advances => advances.reads

end Gafq.Lexer
