import JsonQuery.Proofs.Compilation
import JsonQuery.Proofs.Derivation.Extension
import JsonQuery.Query.Search

/-!
# A pipe is a composition

Two queries with a pipe between them search a document one after the other: the second one
searches what the first one found (`JsonQuery.Query.search_pipe`). That is a statement about
texts, and three things stand between it and the value of a pipe.

The first query is read in front of a pipe as it is read alone, for a pipe binds less than
whatever an expression may end in. There is one exception, a reference that no bracket
encloses, and so the first query must not have any.

The second query is read with the power of a pipe and not with none, so only the part of it
up to *its own* first pipe is the right side
(`JsonQuery.Grammar.Derivable.exists_climb_pipe`). All its further pipes then take the whole
of what is on their left, the first query included. This groups the pipes in another way
than in the second query alone, where they group among themselves. The value is the same, as
composition is associative; what carries the proof from one pipe to the next is that the
left side so far means the first query followed by what would be the left side without it
(`JsonQuery.Expr.Composes`).
-/

namespace JsonQuery

open Token (Lexeme)

/-! ### Composed expressions -/

/-- That an expression means two others **one after the other**. -/
def Expr.Composes (e first second : Expr) : Prop :=
  ∀ table v, e.evaluate table v = first.evaluate table v >>= second.evaluate table

theorem Expr.composes_pipe (first second : Expr) : (pipe first second).Composes first second :=
  fun _ _ => rfl

/-- A pipe may be moved over a composition. -/
theorem Expr.Composes.pipe {e first second : Expr} (h : e.Composes first second) (right : Expr) :
    (Expr.pipe e right).Composes first (second.pipe right) := by
  intro table v
  rw [composes_pipe e right table v, h table v]
  cases first.evaluate table v with
  | error => rfl
  | ok w => exact (composes_pipe second right table w).symm

namespace Grammar

/-! ### The first query -/

/-- What stands behind an operand may go on if it does not end in a reference. -/
theorem Derivable.exists_climb_append {L : Nat} {left e : Expr} {ls : List Lexeme}
    (h : Derivable ⟨L, .climb 0 left e, ls, []⟩)
    (hopen : ∀ o, Occurs o ⟨L, .climb 0 left e, ls, []⟩ → ¬o.IsOpenReference)
    {M : Nat} {larger : Expr} {tail : List Lexeme} (htail : (front tail).power ≤ 1)
    (hmore : Derivable ⟨M, .climb 0 e larger, tail, []⟩) :
    ∃ N, Derivable ⟨N, .climb 0 left larger, ls ++ tail, []⟩ := by
  refine h.climb_induction (P := fun L left ls =>
    (∀ o, Occurs o ⟨L, .climb 0 left e, ls, []⟩ → ¬o.IsOpenReference) →
      ∃ N, Derivable ⟨N, .climb 0 left larger, ls ++ tail, []⟩) ?_ ?_ hopen
  · exact fun _ _ => ⟨M, hmore⟩
  · -- the step is read in front of what is added, and the rest is as before
    intro L s left next ls mid hp hstep hclimb ih hopen
    obtain ⟨N, hN⟩ := ih fun o ho => hopen o ((Rule.climb hp).occurs_right hstep ho)
    have hstep' := hstep.extend tail htail (fun _ => trivial) fun o ho hopen' =>
      absurd hopen' (hopen o ((Rule.climb hp).occurs_left ho hclimb))
    refine ⟨max L N + 1, (Rule.climb hp).derivable_pair ?_ (hN.mono (Nat.le_max_right L N))⟩
    exact Derivable.mono hstep' (Nat.le_max_left L N)

/-! ### The second query -/

/-- What stands behind an operand, up to the first pipe and from there on. -/
theorem Derivable.exists_climb_pipe {L : Nat} {left e : Expr} {ls : List Lexeme}
    (h : Derivable ⟨L, .climb 0 left e, ls, []⟩) :
    ∃ larger mid, Derivable ⟨L, .climb 1 left larger, ls, mid⟩ ∧
      Derivable ⟨L, .climb 0 larger e, mid, []⟩ ∧ (front mid).power ≤ 1 := by
  refine h.climb_induction (P := fun L left ls => ∃ larger mid,
    Derivable ⟨L, .climb 1 left larger, ls, mid⟩ ∧
      Derivable ⟨L, .climb 0 larger e, mid, []⟩ ∧ (front mid).power ≤ 1) ?_ ?_
  · intro L hlow
    have hlow' : (front []).power ≤ 1 := Nat.zero_le 1
    exact ⟨e, [], (Rule.stop hlow').derivable_nil, (Rule.stop hlow).derivable_nil, hlow'⟩
  · rintro L s left next ls mid hp hstep hclimb ⟨larger, mid', hfirst, hrest, hlow⟩
    by_cases hs : s.power ≤ 1
    · -- this is the first pipe
      exact ⟨left, .symbol s :: ls, (Rule.stop hs).derivable_nil,
        (Rule.climb hp).derivable_pair hstep hclimb, hs⟩
    · refine ⟨larger, mid', ?_, hrest.mono (Nat.le_succ L), hlow⟩
      exact (Rule.climb (Nat.lt_of_not_le hs)).derivable_pair hstep hfirst

theorem eq_pipe_of_power {s : Symbol} (hpos : 0 < s.power) (hle : s.power ≤ 1) : s = .pipe := by
  cases s <;> simp [Symbol.power] at hpos hle ⊢

/-- **Pipes in a row take any left side.** If it means something followed by the left side
that they have, then so does what they yield. -/
theorem Derivable.exists_composes {L : Nat} {first left e : Expr} {ls : List Lexeme}
    (h : Derivable ⟨L, .climb 0 left e, ls, []⟩) (hlow : (front ls).power ≤ 1) {x : Expr}
    (hx : x.Composes first left) :
    ∃ larger, Derivable ⟨L, .climb 0 x larger, ls, []⟩ ∧ larger.Composes first e := by
  refine h.climb_induction (P := fun L left ls => (front ls).power ≤ 1 →
    ∀ x : Expr, x.Composes first left →
      ∃ larger, Derivable ⟨L, .climb 0 x larger, ls, []⟩ ∧ larger.Composes first e)
    ?_ ?_ hlow x hx
  · exact fun hstop _ x hx => ⟨x, (Rule.stop hstop).derivable_nil, hx⟩
  · intro L s left next ls mid hp hstep _ ih hlow x hx
    obtain rfl := eq_pipe_of_power hp hlow
    obtain ⟨hr, hpremises⟩ := hstep
    cases hr with
    | @pipe _ _ right =>
      have hright := hpremises _ (List.mem_singleton_self _)
      obtain ⟨larger, hlarger, hcomposes⟩ := ih hright.power_front_le _ (hx.pipe right)
      exact ⟨larger,
        (Rule.climb hp).derivable_pair (Rule.pipe.derivable_singleton hright) hlarger, hcomposes⟩

/-! ### Both queries -/

/-- **Reading two expressions with a pipe between them.** -/
theorem Derivable.exists_pipe {L M : Nat} {e f : Expr} {ls ms : List Lexeme}
    (he : Derivable ⟨L, .expression 0 e, ls, []⟩) (hexposed : ¬Exposed ls)
    (hf : Derivable ⟨M, .expression 0 f, ms, []⟩) :
    ∃ N larger, Derivable ⟨N, .expression 0 larger, ls ++ .symbol .pipe :: ms, []⟩ ∧
      larger.Composes e f := by
  obtain ⟨K, left, rest, rfl, hleft, hclimb⟩ := he.expression_cases
  obtain ⟨J, start, rest', rfl, hstart, hclimb'⟩ := hf.expression_cases
  -- the right side of the pipe is the second expression up to its own first pipe
  obtain ⟨right, mid, hright, hmore, hlow⟩ := hclimb'.exists_climb_pipe
  obtain ⟨larger, hlarger, hcomposes⟩ := hmore.exists_composes hlow (Expr.composes_pipe e right)
  have hpipe : Derivable ⟨J + 2, .climb 0 e larger, .symbol .pipe :: ms, []⟩ :=
    (Rule.climb (by decide)).derivable_pair
      (Rule.pipe.derivable_singleton (Rule.expression.derivable_pair hstart hright))
      (hlarger.mono (Nat.le_succ J))
  have hopen : ∀ o, Occurs o ⟨K + 1, .expression 0 e, ls, []⟩ → ¬o.IsOpenReference :=
    fun o ho hopen => hexposed (ho.exposed hopen)
  have htail : (front (.symbol .pipe :: ms)).power ≤ 1 := Nat.le_refl 1
  obtain ⟨N, hN⟩ := hclimb.exists_climb_append
    (fun o ho => hopen o (Rule.expression.occurs_right hleft ho)) htail hpipe
  have hleft' := hleft.extend (.symbol .pipe :: ms) htail (fun _ => trivial)
    fun o ho hopen' => absurd hopen' (hopen o (Rule.expression.occurs_left ho hclimb))
  refine ⟨max K N + 1, larger, Rule.expression.derivable_pair ?_
    (hN.mono (Nat.le_max_right K N)), hcomposes⟩
  exact Derivable.mono hleft' (Nat.le_max_left K N)

end Grammar

/-- An error without the expression that it is in. -/
def Error.detach : Error → Error
  | .fault f _ => .fault f none
  | e => e

namespace Query

open Grammar (Exposed lexemes)
open Scan (Splits Breaks)

theorem mapError_search (q : Query) (table : Registry) (v : Json) :
    (q.search table v).mapError Error.detach =
      (q.expr.evaluate table v).mapError fun f => .fault f none := by
  rw [search]
  cases q.expr.evaluate table v <;> rfl

/-- A query whose expression means two others one after the other searches like them. -/
theorem mapError_search_of_composes {p q r : Query} (h : r.expr.Composes p.expr q.expr)
    (table : Registry) (v : Json) : (r.search table v).mapError Error.detach =
      (p.search table v >>= q.search table).mapError Error.detach := by
  rw [mapError_search, h table v, search]
  cases p.expr.evaluate table v with
  | error f => rfl
  | ok w => exact (mapError_search q table w).symm

/-- **A pipe is a composition**, from the text to the result. The query that two queries
with a pipe between them make up finds what the second one finds in what the first one
finds, or fails as they do. -/
theorem search_pipe {p q : Query} (hp : compile p.text = .ok p) (hq : compile q.text = .ok q)
    (hexposed : ¬Exposed (lexemes (Scan.ofChars p.text.toList).tokens))
    (hdeep : ¬IsTooDeep (p.text ++ " | " ++ q.text)) :
    ∃ r, compile (p.text ++ " | " ++ q.text) = .ok r ∧
      ∀ table v, (r.search table v).mapError Error.detach =
        (p.search table v >>= q.search table).mapError Error.detach := by
  obtain ⟨-, ls, hs, hd⟩ := derivable_of_compile hp
  obtain ⟨-, ms, hm, he⟩ := derivable_of_compile hq
  rw [Scan.lexemes_tokens_of_splits hs] at hexposed
  obtain ⟨N, larger, hlarger, hcomposes⟩ := hd.exists_pipe hexposed he
  have htext : Splits (p.text ++ " | " ++ q.text).toList (ls ++ .symbol .pipe :: ms) := by
    rw [String.append_assoc, String.toList_append, String.toList_append]
    exact hs.append (Scan.breaks_cons rfl _) (.space rfl (.lexeme rfl rfl (.space rfl hm)))
  have hcompile := (compilesUpToDepth_of_derivable htext hlarger).resolve_right hdeep
  exact ⟨_, hcompile, mapError_search_of_composes hcomposes⟩

/-- A projection that a reference stands in, and a query with a pipe of its own. -/
theorem search_pipe_of_sorted : ∃ p q r, compile "sort_by(a, &b)[*]" = .ok p ∧
    compile "[0] | c" = .ok q ∧ compile "sort_by(a, &b)[*] | [0] | c" = .ok r ∧
      ∀ table v, (r.search table v).mapError Error.detach =
        (p.search table v >>= q.search table).mapError Error.detach := by
  obtain ⟨p, hp⟩ := exists_of_isOk
    (show (compile "sort_by(a, &b)[*]").isOk = true by decide +kernel)
  obtain ⟨q, hq⟩ := exists_of_isOk (show (compile "[0] | c").isOk = true by decide +kernel)
  have hptext := (derivable_of_compile hp).1
  have hqtext := (derivable_of_compile hq).1
  have htext : p.text ++ " | " ++ q.text = "sort_by(a, &b)[*] | [0] | c" := by
    rw [hptext, hqtext]
    decide
  have hexposed : ¬Exposed (lexemes (Scan.ofChars p.text.toList).tokens) := by
    rw [hptext]
    decide +kernel
  have hdeep : ¬IsTooDeep (p.text ++ " | " ++ q.text) := by
    rw [htext]
    exact not_isTooDeep_of_isOk (by decide +kernel)
  obtain ⟨r, hr, hsearch⟩ := search_pipe (by rwa [hptext]) (by rwa [hqtext]) hexposed hdeep
  rw [htext] at hr
  exact ⟨p, q, r, hp, hq, hr, hsearch⟩

end Query

end JsonQuery
