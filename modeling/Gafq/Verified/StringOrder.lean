import Gafq.Compare

/-! # The order of strings

`l_strcmp` is the lexicographic order on the pieces between the NULs of two strings, when the pieces are
compared by `strcoll`.  So it inherits the laws of `strcoll`.
-/

namespace Gafq

/-! ## Pieces -/

/-- The string that is made of some pieces, with a NUL between two of them. -/
def join : List CString → List UInt8
  | [] => []
  | [s] => s.chars
  | s :: t :: pieces => s.chars ++ 0 :: join (t :: pieces)

/-- A character in front of the first piece. -/
def prepend (c : UInt8) (isChar : c ≠ 0) : List CString → List CString
  | [] => []
  | s :: rest => ⟨c :: s.chars, by simp [s.noNul, Ne.symm isChar]⟩ :: rest

theorem nil_noNul : (0 : UInt8) ∉ ([] : List UInt8) := List.not_mem_nil

/-- The C strings between the NULs of a string. -/
def pieces : List UInt8 → List CString
  | [] => [⟨[], nil_noNul⟩]
  | c :: a => if nul : c = 0 then ⟨[], nil_noNul⟩ :: pieces a else prepend c nul (pieces a)

theorem exists_pieces (a : List UInt8) : ∃ s rest, pieces a = s :: rest := by
  induction a with
  | nil => exact ⟨_, _, rfl⟩
  | cons c a inductionHypothesis =>
    obtain ⟨s, rest, cut⟩ := inductionHypothesis
    rw [pieces]
    split
    · exact ⟨_, _, rfl⟩
    · exact ⟨_, _, by rw [cut, prepend]⟩

theorem join_pieces (a : List UInt8) : join (pieces a) = a := by
  induction a with
  | nil => rfl
  | cons c a inductionHypothesis =>
    obtain ⟨s, rest, cut⟩ := exists_pieces a
    rw [cut] at inductionHypothesis
    rw [pieces, cut]
    split
    · next nul => simp [join, inductionHypothesis, nul]
    · cases rest <;> simp_all [join, prepend]

theorem pieces_injective {a b : List UInt8} (same : pieces a = pieces b) : a = b := by
  rw [← join_pieces a, same, join_pieces b]

/-- What stands behind the first piece, up to the NUL that closes the string. -/
theorem getstr_join (s : CString) (pieces : List CString) :
    ∃ rest, getstr (join (s :: pieces)) = s.chars ++ 0 :: rest ∧
      (pieces ≠ [] → rest = getstr (join pieces)) := by
  cases pieces with
  | nil => exact ⟨[], rfl, by simp⟩
  | cons t pieces => exact ⟨getstr (join (t :: pieces)), by simp [getstr, join], fun _ => rfl⟩

theorem ofBytes_append (s : CString) (rest : List UInt8) : CString.ofBytes (s.chars ++ 0 :: rest) = s := by
  obtain ⟨chars, noNul⟩ := s
  have all : ∀ c ∈ chars, (c != 0) = true := by
    intro c member
    simp only [bne_iff_ne, ne_eq]
    rintro rfl
    exact noNul member
  simp [CString.ofBytes, List.takeWhile_append_of_pos all]

theorem strlen_append (s : CString) (rest : List UInt8) : strlen (s.chars ++ 0 :: rest) = some s.chars.length := by
  simp [strlen, ofBytes_append]

/-! ## Refinement -/

section

variable {strcoll : CString → CString → Int}

/-- What `strcoll` says about two C strings. -/
def collate (strcoll : CString → CString → Int) (s t : CString) : Ordering := compare (strcoll s t) 0

/-- One iteration of the loop of `l_strcmp`. -/
theorem strcmpLoop_join (s t : CString) (ps qs : List CString) :
    strcmp strcoll (join (s :: ps)) (join (t :: qs)) =
      if strcoll s t ≠ 0 then some (strcoll s t)
      else if s.chars.length = (join (t :: qs)).length then some (if s.chars.length = (join (s :: ps)).length then 0 else 1)
      else if s.chars.length = (join (s :: ps)).length then some (-1)
      else strcmpLoop strcoll ((getstr (join (s :: ps))).drop (s.chars.length + 1))
        ((join (s :: ps)).length - (s.chars.length + 1)) ((getstr (join (t :: qs))).drop (s.chars.length + 1))
        ((join (t :: qs)).length - (s.chars.length + 1)) := by
  obtain ⟨restS, wholeS, -⟩ := getstr_join s ps
  obtain ⟨restT, wholeT, -⟩ := getstr_join t qs
  rw [strcmp, strcmpLoop, wholeS, wholeT]
  simp only [ofBytes_append]
  split
  · next len _ foundS foundT =>
    rw [strlen_append] at foundS
    cases foundS
    rfl
  · next impossible => exact (impossible _ _ (strlen_append s restS) (strlen_append t restT)).elim

/-- `strcoll` on strings without NULs is a total order that returns zero only for equal strings. -/
structure Collates (strcoll : CString → CString → Int) : Prop where
  zero : ∀ {s t}, strcoll s t = 0 ↔ s = t
  antisymm : ∀ {s t}, 0 < strcoll s t ↔ strcoll t s < 0
  trans : ∀ {s t u}, strcoll s t < 0 → strcoll t u < 0 → strcoll s u < 0

theorem strcmp_join (order : Collates strcoll) (s t : CString) (ps qs : List CString) :
    ∃ k, strcmp strcoll (join (s :: ps)) (join (t :: qs)) = some k ∧
      compare k 0 = (s :: ps).compareLex (collate strcoll) (t :: qs) := by
  induction ps generalizing s t qs with
  | nil =>
    rw [strcmpLoop_join, List.compareLex_cons_cons]
    by_cases decided : strcoll s t = 0
    · -- both strings begin with the same piece, and the left one is finished
      obtain rfl : s = t := order.zero.1 decided
      cases qs with
      | nil => exact ⟨0, by simp [decided, join], by simp [collate, decided, List.compareLex_nil_nil]⟩
      | cons u qs =>
        refine ⟨-1, by simp [decided, join], ?_⟩
        simp only [collate, decided, List.compareLex_nil_cons]
        decide
    · exact ⟨strcoll s t, by simp [decided], by simp [collate, decided, Ordering.then]⟩
  | cons u ps inductionHypothesis =>
    rw [strcmpLoop_join, List.compareLex_cons_cons]
    by_cases decided : strcoll s t = 0
    · obtain rfl : s = t := order.zero.1 decided
      cases qs with
      | nil =>
        refine ⟨1, by simp [decided, join], ?_⟩
        simp only [collate, decided, List.compareLex_cons_nil]
        decide
      | cons v qs =>
        obtain ⟨k, compared, agrees⟩ := inductionHypothesis u v qs
        refine ⟨k, ?_, by simp [collate, decided, agrees]⟩
        have fewer (n : Nat) : s.chars.length + (n + 1) - (s.chars.length + 1) = n := by omega
        rw [← compared, strcmp]
        simp [decided, getstr, join, fewer]
    · exact ⟨strcoll s t, by simp [decided], by simp [collate, decided, Ordering.then]⟩

/-! ## Laws -/

theorem Collates.transCmp (order : Collates strcoll) : Std.TransCmp (collate strcoll) where
  eq_swap {s t} := by
    have forth := @order.antisymm s t
    have back := @order.antisymm t s
    obtain less | equal | greater := lt_trichotomy (strcoll s t) 0
    · rw [collate, collate, compare_lt_iff_lt.2 less, compare_gt_iff_gt.2 (back.2 less)]
      rfl
    · obtain rfl := order.zero.1 equal
      simp [collate, equal]
    · rw [collate, collate, compare_gt_iff_gt.2 greater, compare_lt_iff_lt.2 (forth.1 greater)]
      rfl
  isLE_trans {s t u} first second := by
    simp only [collate, Int.isLE_compare] at first second ⊢
    obtain less | equal := first.lt_or_eq
    · obtain less' | equal' := second.lt_or_eq
      · exact (order.trans less less').le
      · obtain rfl := order.zero.1 equal'
        exact first
    · obtain rfl := order.zero.1 equal
      exact second

theorem Collates.lawfulEqCmp (order : Collates strcoll) : Std.LawfulEqCmp (collate strcoll) where
  compare_self {s} := by simp [collate, order.zero.2 (rfl : s = s)]
  eq_of_compare {s t} equal := by
    apply order.zero.1
    simpa [collate] using equal

variable {a b c : List UInt8} {i j k : Int}

/-- `l_strcmp` always returns, and it compares the strings piece by piece. -/
theorem exists_strcmp (order : Collates strcoll) (a b : List UInt8) : ∃ k, strcmp strcoll a b = some k ∧
    compare k 0 = (pieces a).compareLex (collate strcoll) (pieces b) := by
  obtain ⟨s, ps, cutA⟩ := exists_pieces a
  obtain ⟨t, qs, cutB⟩ := exists_pieces b
  have compared := strcmp_join order s t ps qs
  rwa [← cutA, ← cutB, join_pieces, join_pieces] at compared

theorem strcmp_eq_lexicographic (order : Collates strcoll) (compared : strcmp strcoll a b = some k) :
    compare k 0 = (pieces a).compareLex (collate strcoll) (pieces b) := by
  obtain ⟨k', compared', agrees⟩ := exists_strcmp order a b
  rw [compared] at compared'
  cases compared'
  exact agrees

theorem strcmp_zero (order : Collates strcoll) : strcmp strcoll a b = some 0 ↔ a = b := by
  have := order.lawfulEqCmp
  constructor
  · intro compared
    apply pieces_injective
    exact Std.LawfulEqCmp.eq_of_compare (strcmp_eq_lexicographic order compared).symm
  · rintro rfl
    obtain ⟨k, compared, agrees⟩ := exists_strcmp order a a
    have same : (pieces a).compareLex (collate strcoll) (pieces a) = .eq := Std.ReflCmp.compare_self
    rw [same, compare_eq_iff_eq] at agrees
    rw [compared, agrees]

theorem strcmp_antisymm (order : Collates strcoll) (forth : strcmp strcoll a b = some i)
    (back : strcmp strcoll b a = some j) : 0 < i ↔ j < 0 := by
  have := order.transCmp
  rw [← compare_gt_iff_gt, ← compare_lt_iff_lt, strcmp_eq_lexicographic order forth,
    strcmp_eq_lexicographic order back]
  exact Std.OrientedCmp.gt_iff_lt

theorem strcmp_trans (order : Collates strcoll) (first : strcmp strcoll a b = some i)
    (second : strcmp strcoll b c = some j) (both : strcmp strcoll a c = some k) (le : i ≤ 0) (le' : j ≤ 0) :
    k ≤ 0 ∧ (i < 0 ∨ j < 0 → k < 0) := by
  have := order.transCmp
  have agrees := strcmp_eq_lexicographic order first
  have agrees' := strcmp_eq_lexicographic order second
  rw [← Int.isLE_compare, agrees] at le
  rw [← Int.isLE_compare, agrees'] at le'
  rw [← Int.isLE_compare, ← compare_lt_iff_lt (a := i), ← compare_lt_iff_lt (a := j), ← compare_lt_iff_lt (a := k),
    agrees, agrees', strcmp_eq_lexicographic order both]
  constructor
  · exact Std.TransCmp.isLE_trans le le'
  · rintro (less | less)
    · exact Std.TransCmp.lt_of_lt_of_isLE less le'
    · exact Std.TransCmp.lt_of_isLE_of_lt le less

/-! ## Bytes -/

/-- A NUL, or the end of the string. -/
def Stops (x : List UInt8) : Prop := ∀ c ∈ x.head?, c = 0

/-- Nothing sorts before the end of a string, and only the end sorts before a NUL. -/
theorem append_lt_append {s t x y : List UInt8} (noNul : 0 ∉ s) (noNul' : 0 ∉ t) (stops : Stops x) (stops' : Stops y) :
    s ++ x < t ++ y ↔ s < t ∨ s = t ∧ x < y := by
  have before {c : UInt8} (isChar : 0 ≠ c) : 0 < c := UInt8.pos_iff_ne_zero.2 isChar.symm
  induction s generalizing t with
  | nil =>
    cases t with
    | nil => simp
    | cons d t =>
      simp only [List.mem_cons, not_or] at noNul'
      cases x with
      | nil => simp
      | cons c x =>
        obtain rfl : c = 0 := stops c rfl
        simp [List.cons_lt_cons_iff, before noNul'.1]
  | cons c s inductionHypothesis =>
    simp only [List.mem_cons, not_or] at noNul
    cases t with
    | nil =>
      cases y with
      | nil => simp
      | cons d y =>
        obtain rfl : d = 0 := stops' d rfl
        simp [List.cons_lt_cons_iff, Ne.symm noNul.1]
    | cons d t =>
      simp only [List.mem_cons, not_or] at noNul'
      simp only [List.cons_append, List.cons_lt_cons_iff, inductionHypothesis noNul.2 noNul'.2, List.cons.injEq]
      grind

/-- `strcoll` compares C strings as unsigned bytes. -/
def Bytewise (strcoll : CString → CString → Int) : Prop := ∀ s t, strcoll s t < 0 ↔ s.chars < t.chars

/-- What follows the first piece. -/
def following (rest : List CString) : List UInt8 := if rest = [] then [] else 0 :: join rest

theorem join_cons (s : CString) (rest : List CString) : join (s :: rest) = s.chars ++ following rest := by
  cases rest <;> simp [join, following]

theorem stops_following (rest : List CString) : Stops (following rest) := by
  cases rest <;> simp [Stops, following]

/-- The pieces of two strings are ordered as their bytes are. -/
theorem lexicographic_lt (order : Collates strcoll) (bytewise : Bytewise strcoll) (s t : CString) (ps qs : List CString) :
    (s :: ps).compareLex (collate strcoll) (t :: qs) = .lt ↔ join (s :: ps) < join (t :: qs) := by
  have same (s t : CString) : s.chars = t.chars ↔ collate strcoll s t = .eq := by
    rw [collate, compare_eq_iff_eq, order.zero]
    cases s
    cases t
    simp
  have less (s t : CString) : s.chars < t.chars ↔ collate strcoll s t = .lt := by
    rw [collate, compare_lt_iff_lt, bytewise]
  -- the rests are compared as the strings they are
  have step (s t : CString) (ps qs : List CString)
      (rest : ps.compareLex (collate strcoll) qs = .lt ↔ following ps < following qs) :
      (s :: ps).compareLex (collate strcoll) (t :: qs) = .lt ↔ join (s :: ps) < join (t :: qs) := by
    rw [join_cons, join_cons, append_lt_append s.noNul t.noNul (stops_following ps) (stops_following qs),
      List.compareLex_cons_cons, Ordering.then_eq_lt, same, less, rest]
  induction ps generalizing s t qs with
  | nil =>
    apply step
    cases qs <;> simp [following, List.compareLex_nil_nil, List.compareLex_nil_cons]
  | cons u ps inductionHypothesis =>
    apply step
    cases qs with
    | nil => simp [following, List.compareLex_cons_nil]
    | cons v qs => simp [following, inductionHypothesis]

/-- `l_strcmp` is a total order on strings with NULs, and the order of unsigned bytes if `strcoll` is. -/
theorem strcmp_isTotalOrder (order : Collates strcoll) :
    (∀ a b, ∃ k, strcmp strcoll a b = some k) ∧
    (∀ a b, strcmp strcoll a b = some 0 ↔ a = b) ∧
    (∀ a b i j, strcmp strcoll a b = some i → strcmp strcoll b a = some j → (0 < i ↔ j < 0)) ∧
    (∀ a b c i j k, strcmp strcoll a b = some i → strcmp strcoll b c = some j → strcmp strcoll a c = some k →
      i ≤ 0 → j ≤ 0 → k ≤ 0 ∧ (i < 0 ∨ j < 0 → k < 0)) ∧
    (Bytewise strcoll → ∀ a b k, strcmp strcoll a b = some k → (k < 0 ↔ a < b)) := by
  refine ⟨fun a b => ?_, fun a b => strcmp_zero order, fun a b i j => strcmp_antisymm order,
    fun a b c i j k => strcmp_trans order, fun bytewise a b k compared => ?_⟩
  · obtain ⟨k, compared, -⟩ := exists_strcmp order a b
    exact ⟨k, compared⟩
  · obtain ⟨s, ps, cutA⟩ := exists_pieces a
    obtain ⟨t, qs, cutB⟩ := exists_pieces b
    have less := lexicographic_lt order bytewise s t ps qs
    rw [← cutA, ← cutB, join_pieces, join_pieces, ← strcmp_eq_lexicographic order compared, compare_lt_iff_lt] at less
    exact less

/-! ## Operators -/

section

variable {N : Type} [GafqNumber N] {numlt numle : N → N → Bool} {str : Nat → List UInt8}

theorem lessthan_string (order : Collates strcoll) (x y : Nat) : lessthan numlt str strcoll (.string x) (.string y) =
    .done (decide ((pieces (str x)).compareLex (collate strcoll) (pieces (str y)) = .lt)) := by
  obtain ⟨k, compared, agrees⟩ := exists_strcmp order (str x) (str y)
  rw [← agrees]
  simp [lessthan, TValue.ttype, strcmpObj, compared, compare_lt_iff_lt]

theorem lessequal_string (order : Collates strcoll) (x y : Nat) : lessequal numle str strcoll (.string x) (.string y) =
    .done ((pieces (str x)).compareLex (collate strcoll) (pieces (str y))).isLE := by
  obtain ⟨k, compared, agrees⟩ := exists_strcmp order (str x) (str y)
  have le : decide (k ≤ 0) = (compare k 0).isLE := by
    rw [Bool.eq_iff_iff, Int.isLE_compare, decide_eq_true_iff]
  rw [← agrees, ← le]
  simp [lessequal, TValue.ttype, strcmpObj, compared]

end

end

/-- `strcoll` of the "C" locale. -/
def bytecoll (s t : CString) : Int := if s.chars < t.chars then -1 else if s.chars = t.chars then 0 else 1

theorem bytecoll_cases (s t : CString) :
    s.chars < t.chars ∧ bytecoll s t = -1 ∧ bytecoll t s = 1 ∨ s.chars = t.chars ∧ bytecoll s t = 0 ∧ bytecoll t s = 0 ∨
      t.chars < s.chars ∧ bytecoll s t = 1 ∧ bytecoll t s = -1 := by
  have strict {x y : List UInt8} (less : x < y) : ¬ y < x ∧ x ≠ y :=
    ⟨List.lt_asymm less, fun same => List.lt_irrefl y (same ▸ less)⟩
  by_cases less : s.chars < t.chars
  · exact .inl ⟨less, by simp [bytecoll, less], by simp [bytecoll, strict less, (strict less).2.symm]⟩
  · by_cases greater : t.chars < s.chars
    · exact .inr (.inr ⟨greater, by simp [bytecoll, less, (strict greater).2.symm], by simp [bytecoll, greater]⟩)
    · have equal : s.chars = t.chars := List.le_antisymm greater less
      exact .inr (.inl ⟨equal, by simp [bytecoll, equal], by simp [bytecoll, equal]⟩)

theorem bytecoll_collates : Collates bytecoll where
  zero {s t} := by
    have same : s = t ↔ s.chars = t.chars := by
      cases s
      cases t
      simp
    rw [same]
    obtain ⟨less, value, -⟩ | ⟨equal, value, -⟩ | ⟨greater, value, -⟩ := bytecoll_cases s t
    · simp only [value]
      have : s.chars ≠ t.chars := fun same => List.lt_irrefl t.chars (same ▸ less)
      simp [this]
    · simp [value, equal]
    · have : s.chars ≠ t.chars := fun same => List.lt_irrefl t.chars (same ▸ greater)
      simp [value, this]
  antisymm {s t} := by
    obtain ⟨-, value, value'⟩ | ⟨-, value, value'⟩ | ⟨-, value, value'⟩ := bytecoll_cases s t <;>
      simp [value, value']
  trans {s t u} first second := by
    obtain ⟨less, -⟩ | ⟨-, value, -⟩ | ⟨-, value, -⟩ := bytecoll_cases s t
    · obtain ⟨less', -⟩ | ⟨-, value, -⟩ | ⟨-, value, -⟩ := bytecoll_cases t u
      · simp [bytecoll, List.lt_trans less less']
      · omega
      · omega
    · omega
    · omega

theorem strcmp_isTotalOrder_bytecoll : Collates bytecoll ∧ strcmp bytecoll [1, 0, 2] [1, 0, 2] = some 0 :=
  ⟨bytecoll_collates, ((strcmp_isTotalOrder bytecoll_collates).2.1 _ _).2 rfl⟩

end Gafq
