import JsonQuery.Proofs.Derivation.Completeness
import JsonQuery.Proofs.Lexing
import JsonQuery.Query

/-!
# What compiles

The two halves of reading a query put together: the text splits into lexemes, and an
expression is derivable from them. Both directions of
`JsonQuery.Query.compile_eq_ok_iff` are used all the time. From a query that compiled one
gets a derivation; and to see what a text compiles to it is enough to split it and to find
*any* derivation from its lexemes, for the only thing that can go wrong then is that it
nests too deeply (`JsonQuery.Query.compilesUpToDepth_of_derivable`).
-/

namespace JsonQuery

open Token (Lexeme)
open Grammar (Derivable lexemes)
open Scan (Splits)

/-- A refusal for want of levels is reported as such. -/
theorem Grammar.Refusal.IsTooDeep.fault_eq {r : Grammar.Refusal} (h : r.IsTooDeep)
    (length : Nat) : ∃ position shown kind,
      r.fault length = .badSyntax position shown kind (some .tooDeep) := by
  match r, h with
  | .token position shown kind (some .tooDeep), _ => exact ⟨position, shown, kind, rfl⟩

/-- What a text splits into are the lexemes of its tokens. -/
theorem Scan.lexemes_tokens_of_splits {cs : List Char} {ls : List Lexeme} (h : Splits cs ls) :
    lexemes (Scan.ofChars cs).tokens = ls := by
  obtain ⟨ts, length, hscan, rfl⟩ := Scan.exists_startingAt_of_splits h 0
  rw [Scan.ofChars, hscan]

namespace Query

theorem exists_of_isOk {text : String} (h : (compile text).isOk = true) :
    ∃ q, compile text = .ok q := by
  cases hq : compile text with
  | ok q => exact ⟨q, rfl⟩
  | error e =>
    rw [hq] at h
    exact absurd h Bool.false_ne_true

/-- That a text is refused because its expression nests too deeply. -/
def IsTooDeep (text : String) : Prop :=
  ∃ position shown kind,
    compile text = .error (.fault (.badSyntax position shown kind (some .tooDeep)) (some text))

/-- That a text **compiles to** an expression, if it does not nest too deeply. -/
def CompilesUpToDepth (text : String) (e : Expr) : Prop :=
  compile text = .ok ⟨text, e⟩ ∨ IsTooDeep text

theorem not_isTooDeep_of_isOk {text : String} (h : (compile text).isOk = true) :
    ¬IsTooDeep text := by
  rintro ⟨position, shown, kind, hdeep⟩
  rw [hdeep] at h
  exact absurd h Bool.false_ne_true

theorem CompilesUpToDepth.eq_ok {text : String} {e : Expr} (h : CompilesUpToDepth text e)
    (hok : (compile text).isOk = true) : compile text = .ok ⟨text, e⟩ :=
  h.resolve_right (not_isTooDeep_of_isOk hok)

/-- The tokens of a text that is not blank are read as an expression. -/
theorem compile_of_scan {text : String} {ts : List Token} {length : Nat}
    (hblank : text.toList.all Text.isBlank = false)
    (hscan : Scan.ofChars text.toList = ⟨ts, .finished length⟩) :
    compile text = match Expr.ofTokens ts with
      | .ok e => .ok ⟨text, e⟩
      | .error r => .error (.fault (r.fault length) (some text)) := by
  have hs : scan text = .ok ⟨ts, .finished length⟩ := by rw [scan, hblank, hscan]; rfl
  rw [compile, hs]
  simp only [bind, Except.bind, exprOfScan]
  cases Expr.ofTokens ts <;> rfl

/-- A query that compiled holds its text, and its expression is derivable from the lexemes
of its text. -/
theorem derivable_of_compile {text : String} {q : Query} (h : compile text = .ok q) :
    q.text = text ∧ ∃ ls, Splits text.toList ls ∧
      Derivable ⟨Grammar.maxNesting, .expression 0 q.expr, ls, []⟩ := by
  have hblank : text.toList.all Text.isBlank = false := by
    rw [← Bool.not_eq_true]
    intro hblank
    simp [compile, scan, hblank, bind, Except.bind] at h
  cases hscan : Scan.ofChars text.toList with
  | mk ts ending =>
    cases ending with
    | failed position shown =>
      simp [compile, scan, hblank, hscan, exprOfScan, bind, Except.bind] at h
    | finished length =>
      rw [compile_of_scan hblank hscan] at h
      split at h
      · next e he =>
        obtain rfl := Except.ok.inj h
        exact ⟨rfl, lexemes ts, Scan.splits_of_startingAt hscan, Grammar.derivable_of_ofTokens he⟩
      · simp at h

/-- The **reading of a query**: of its expression, from the lexemes of its text. -/
def reading (q : Query) : Grammar.Reading :=
  ⟨Grammar.maxNesting, .expression 0 q.expr, lexemes (Scan.ofChars q.text.toList).tokens, []⟩

theorem derivable_reading {text : String} {q : Query} (h : compile text = .ok q) :
    q.text = text ∧ Derivable q.reading := by
  obtain ⟨rfl, ls, hs, hd⟩ := derivable_of_compile h
  refine ⟨rfl, ?_⟩
  rwa [reading, Scan.lexemes_tokens_of_splits hs]

/-- A text from whose lexemes an expression is derivable compiles to it, unless the
derivation has too many levels and the text is refused for that. -/
theorem compile_of_derivable {text : String} {ls : List Lexeme} {L : Nat} {e : Expr}
    (hs : Splits text.toList ls) (hd : Derivable ⟨L, .expression 0 e, ls, []⟩) :
    compile text = .ok ⟨text, e⟩ ∨ Grammar.maxNesting < L ∧ IsTooDeep text := by
  have hblank : text.toList.all Text.isBlank = false := by
    rw [← Bool.not_eq_true]
    intro hblank
    obtain rfl := hs.eq_nil_of_blank hblank
    simpa [Grammar.Part.gain] using hd.length_le
  obtain ⟨ts, length, hscan, rfl⟩ := Scan.exists_startingAt_of_splits hs 0
  rw [IsTooDeep, compile_of_scan hblank hscan]
  rcases Grammar.settled_ofTokens hd with hread | ⟨hlt, r, hread, hr⟩
  · rw [hread]
    exact Or.inl rfl
  · rw [hread]
    obtain ⟨position, shown, kind, hfault⟩ := hr.fault_eq length
    exact Or.inr ⟨hlt, position, shown, kind, by simp only [hfault]⟩

/-- **What compiles**: a text whose lexemes an expression is derivable from. -/
theorem compile_eq_ok_iff {text : String} {q : Query} :
    compile text = .ok q ↔ q.text = text ∧ ∃ ls, Splits text.toList ls ∧
      Derivable ⟨Grammar.maxNesting, .expression 0 q.expr, ls, []⟩ := by
  refine ⟨derivable_of_compile, ?_⟩
  rintro ⟨rfl, ls, hs, hd⟩
  exact (compile_of_derivable hs hd).resolve_right fun h => Nat.lt_irrefl _ h.1

/-- **A text from whose lexemes an expression is derivable compiles to it**, unless it
nests too deeply. -/
theorem compilesUpToDepth_of_derivable {text : String} {ls : List Lexeme} {L : Nat} {e : Expr}
    (hs : Splits text.toList ls) (hd : Derivable ⟨L, .expression 0 e, ls, []⟩) :
    CompilesUpToDepth text e :=
  (compile_of_derivable hs hd).imp id And.right

end Query

end JsonQuery
