import JsonQuery.Proofs.Addressing
import JsonQuery.Proofs.PipeComposition

/-!
# Projecting a composition

A projection whose right side is a composition goes over the values once, and takes each of
them through both parts. Two projections in a row go over the values twice: what the first
part makes of them is gathered, and the second part goes over what was gathered. The results
are the same (`JsonQuery.Query.project_composes`), provided that the second part takes `null`
to `null`.

The two differ in what happens to a value that the first part takes to `null`. A single
projection hands the `null` on to the second part, two projections drop it before the second
part can see it. If the second part makes `null` of it the single projection drops it in the
end, and nothing is left of the difference. They also differ in the order in which things are
evaluated: one by one, or first all that the first part does. So where both parts fail,
though on different values, the faults need not be the same, and the equality is one of
results.

What carries the proof is a relation between the values that a projection goes over and those
that it keeps (`JsonQuery.Expr.Gathers`). It goes value by value, and it composes
(`JsonQuery.Expr.gathers_bind_iff`).
-/

namespace JsonQuery

open Token (Lexeme)

theorem Json.isNull_iff {v : Json} : v.isNull = true ↔ v = .null := by
  cases v <;> simp [isNull]

namespace Expr

/-! ### What is gathered -/

/-- That a projection with a given right side **gathers** some values from others: the right
side has a value on each of these, and what is not `null` is kept, in order. -/
inductive Gathers (right : Json → Except Fault Json) : List Json → List Json → Prop
  /-- There is nothing to go over. -/
  | nil : Gathers right [] []
  /-- A value on which the right side yields `null` is dropped. -/
  | drop {v : Json} {vs ws : List Json} (hv : right v = .ok .null) (h : Gathers right vs ws) :
      Gathers right (v :: vs) ws
  /-- What the right side yields otherwise is kept. -/
  | keep {v w : Json} {vs ws : List Json} (hv : right v = .ok w) (hw : w ≠ .null)
      (h : Gathers right vs ws) : Gathers right (v :: vs) (w :: ws)

theorem dropNulls_cons_of_ne {v : Json} (h : v ≠ .null) (vs : List Json) :
    dropNulls (v :: vs) = v :: dropNulls vs := by
  refine List.filter_cons_of_pos ?_
  rwa [Bool.not_eq_true', Bool.eq_false_iff, ne_eq, Json.isNull_iff]

/-- To gather is to evaluate on every value and to drop every `null`. -/
theorem gathers_iff {right : Json → Except Fault Json} {vs ws : List Json} :
    Gathers right vs ws ↔ ∃ results, vs.mapM right = .ok results ∧ dropNulls results = ws := by
  constructor
  · intro h
    induction h with
    | nil => exact ⟨[], rfl, rfl⟩
    | drop hv _ ih =>
      obtain ⟨results, hresults, hdrop⟩ := ih
      refine ⟨.null :: results, ?_, hdrop⟩
      rw [List.mapM_cons, hv, hresults]
      rfl
    | @keep _ w _ _ hv hw _ ih =>
      obtain ⟨results, hresults, hdrop⟩ := ih
      refine ⟨w :: results, ?_, by rw [dropNulls_cons_of_ne hw, hdrop]⟩
      rw [List.mapM_cons, hv, hresults]
      rfl
  · rintro ⟨results, hresults, rfl⟩
    induction vs generalizing results with
    | nil =>
      obtain rfl := Except.ok.inj hresults
      exact .nil
    | cons v vs ih =>
      rw [List.mapM_cons] at hresults
      obtain ⟨w, hw, hmore⟩ := Grammar.bind_eq_ok_iff.mp hresults
      obtain ⟨more, hvs, hcons⟩ := Grammar.bind_eq_ok_iff.mp hmore
      obtain rfl := Except.ok.inj hcons
      by_cases hnull : w = .null
      · rw [hnull] at hw ⊢
        exact .drop hw (ih more hvs)
      · rw [dropNulls_cons_of_ne hnull]
        exact .keep hw hnull (ih more hvs)

/-- **What a projection makes of some values**, if it makes anything of them, is an array of
what it gathers. -/
theorem gather_eq_ok_iff {right : Json → Except Fault Json} {vs : List Json} {x : Json} :
    gather right vs = .ok x ↔ ∃ ws, Gathers right vs ws ∧ x = .array ws := by
  constructor
  · intro h
    obtain ⟨results, hresults, harray⟩ := Grammar.bind_eq_ok_iff.mp h
    exact ⟨_, gathers_iff.mpr ⟨results, hresults, rfl⟩, (Except.ok.inj harray).symm⟩
  · rintro ⟨ws, hws, rfl⟩
    obtain ⟨results, hresults, rfl⟩ := gathers_iff.mp hws
    rw [gather, hresults]
    rfl

section Composition

variable {first second : Json → Except Fault Json} (hnull : second .null = .ok .null)
include hnull

/-- **Gathering composes.** -/
theorem gathers_bind_iff {vs xs : List Json} :
    Gathers (fun v => first v >>= second) vs xs ↔
      ∃ ws, Gathers first vs ws ∧ Gathers second ws xs := by
  constructor
  · intro h
    induction h with
    | nil => exact ⟨[], .nil, .nil⟩
    | drop hv _ ih =>
      obtain ⟨ws, hfirst, hsecond⟩ := ih
      obtain ⟨w, hw, hdrop⟩ := Grammar.bind_eq_ok_iff.mp hv
      -- it is dropped by the first projection or by the second one
      by_cases hwnull : w = .null
      · exact ⟨ws, .drop (hwnull ▸ hw) hfirst, hsecond⟩
      · exact ⟨w :: ws, .keep hw hwnull hfirst, .drop hdrop hsecond⟩
    | keep hv hx _ ih =>
      obtain ⟨ws, hfirst, hsecond⟩ := ih
      obtain ⟨w, hw, hkeep⟩ := Grammar.bind_eq_ok_iff.mp hv
      have hwnull : w ≠ .null := by
        rintro rfl
        exact hx (Except.ok.inj (hkeep.symm.trans hnull))
      exact ⟨w :: ws, .keep hw hwnull hfirst, .keep hkeep hx hsecond⟩
  · rintro ⟨ws, hfirst, hsecond⟩
    induction hfirst generalizing xs with
    | nil =>
      cases hsecond
      exact .nil
    | drop hv _ ih => exact .drop (Grammar.bind_eq_ok_iff.mpr ⟨_, hv, hnull⟩) (ih hsecond)
    | keep hv _ _ ih =>
      cases hsecond with
      | drop hw hsecond => exact .drop (Grammar.bind_eq_ok_iff.mpr ⟨_, hv, hw⟩) (ih hsecond)
      | keep hw hx hsecond => exact .keep (Grammar.bind_eq_ok_iff.mpr ⟨_, hv, hw⟩) hx (ih hsecond)

theorem gather_bind_eq_ok_iff {vs : List Json} {x : Json} :
    gather (fun v => first v >>= second) vs = .ok x ↔
      ∃ ws, gather first vs = .ok (.array ws) ∧ gather second ws = .ok x := by
  constructor
  · intro h
    obtain ⟨xs, hxs, rfl⟩ := gather_eq_ok_iff.mp h
    obtain ⟨ws, hfirst, hsecond⟩ := (gathers_bind_iff hnull).mp hxs
    exact ⟨ws, gather_eq_ok_iff.mpr ⟨ws, hfirst, rfl⟩, gather_eq_ok_iff.mpr ⟨xs, hsecond, rfl⟩⟩
  · rintro ⟨ws, hgather, hgather'⟩
    obtain ⟨_, hfirst, heq⟩ := gather_eq_ok_iff.mp hgather
    obtain rfl := Json.array.inj heq
    obtain ⟨xs, hsecond, rfl⟩ := gather_eq_ok_iff.mp hgather'
    exact gather_eq_ok_iff.mpr ⟨xs, (gathers_bind_iff hnull).mpr ⟨ws, hfirst, hsecond⟩, rfl⟩

end Composition

/-! ### Kinds of projections -/

/-- The **kinds of projections**, by what they go over. -/
inductive Sweep where
  /-- The items of an array. -/
  | items
  /-- The values of an object. -/
  | values
  /-- The items of an array on which a condition is true. -/
  | itemsWhere (condition : Expr)

namespace Sweep

/-- The projection of a kind. -/
def project : Sweep → Expr → Expr → Expr
  | items, left, right => .project left right
  | values, left, right => .projectValues left right
  | itemsWhere condition, left, right => .projectWhere left right condition

/-- What a projection of a kind goes over, if the value on its left is of the right shape. -/
def targets (table : Registry) : Sweep → Json → Except Fault (Option (List Json))
  | items, .array vs => .ok (some vs)
  | values, .object entries => .ok (some (entries.map Prod.snd))
  | itemsWhere condition, .array vs => do
    let kept ← keep (evaluate table condition) vs
    return some kept
  | _, _ => .ok none

end Sweep

/-- What is made of what a projection goes over: there is no result but `null` if it goes over
nothing. -/
def sweepWith (right : Json → Except Fault Json) : Option (List Json) → Except Fault Json
  | some vs => gather right vs
  | none => .ok .null

section Evaluation

variable {table : Registry}

/-- **The three kinds of projections** differ in what they go over and in nothing else. -/
theorem evaluate_project (s : Sweep) (left right : Expr) (v : Json) :
    evaluate table (s.project left right) v =
      evaluate table left v >>= s.targets table >>= sweepWith (evaluate table right) := by
  cases s with
  | items | values =>
    rw [Sweep.project, evaluate]
    rcases evaluate table left v with f | w
    · rfl
    · cases w <;> rfl
  | itemsWhere condition =>
    rw [Sweep.project, evaluate]
    rcases evaluate table left v with f | w
    · rfl
    cases w with
    | array vs =>
      simp only [Sweep.targets, bind, Except.bind]
      cases keep (evaluate table condition) vs <;> rfl
    | _ => rfl

/-- **A projection of a composition** yields what two projections in a row yield. -/
theorem project_eq_ok_iff_of_composes {e first second : Expr} (h : e.Composes first second)
    (hnull : evaluate table second .null = .ok .null) (s : Sweep) (left : Expr) (v x : Json) :
    evaluate table (s.project left e) v = .ok x ↔
      evaluate table (pipe (s.project left first) (project identity second)) v = .ok x := by
  have he : evaluate table e = fun w => evaluate table first w >>= evaluate table second := by
    funext w
    exact h table w
  have hpipe : ∀ w, evaluate table (pipe (s.project left first) (project identity second)) w =
      evaluate table (s.project left first) w >>=
        evaluate table (project identity second) := fun _ => rfl
  rw [hpipe, evaluate_project, evaluate_project, he]
  rcases evaluate table left v >>= s.targets table with f | _ | vs
  · exact Iff.rfl
  · exact Iff.rfl
  · refine (gather_bind_eq_ok_iff hnull).trans ⟨?_, fun hx => ?_⟩
    · rintro ⟨ws, hws, hx⟩
      exact Grammar.bind_eq_ok_iff.mpr ⟨_, hws, hx⟩
    · obtain ⟨w, hw, hx⟩ := Grammar.bind_eq_ok_iff.mp hx
      obtain ⟨ws, -, rfl⟩ := gather_eq_ok_iff.mp hw
      exact ⟨ws, hw, hx⟩

end Evaluation

end Expr

/-! ### Steps behind a star -/

namespace Grammar

theorem derivable_afterDot_name {L p : Nat} {name : String} {rest : List Lexeme}
    (h : (front rest).power ≤ p) :
    Derivable ⟨L + 1, .afterDot p (.field name), .name name :: rest, rest⟩ :=
  (Rule.afterDot (Or.inl rfl)).derivable_singleton <|
    Rule.expression.derivable_pair Rule.name.derivable_nil (Rule.stop h).derivable_nil

end Grammar

namespace Query

open Grammar (Rule Derivable derivable_afterDot_name)
open Scan (Splits breaks_cons)

theorem run_eq_ok_iff {text : String} {q : Query} (h : compile text = .ok q) (table : Registry)
    (v w : Json) : run table text v = .ok w ↔ q.expr.evaluate table v = .ok w := by
  have hrun : run table text v = q.search table v := by
    rw [run, h]
    rfl
  rw [hrun, search]
  rcases q.expr.evaluate table v with f | u
  · constructor <;> intro hw <;> cases hw
  · constructor <;> intro hw <;> rw [Except.ok.inj hw]

section Names

variable {x a b : String} (hx : Path.isName x = true) (ha : Path.isName a = true)
  (hb : Path.isName b = true)
include hx ha hb

theorem compile_projectPath : compile (x ++ "[*]." ++ a ++ "." ++ b) =
    .ok ⟨x ++ "[*]." ++ a ++ "." ++ b, .project (.field x) ((Expr.field a).dotted (.field b))⟩ := by
  refine compile_eq_ok_iff.mpr ⟨rfl, [.name x, .symbol .leftBracket, .symbol .star,
    .symbol .rightBracket, .symbol .dot, .name a, .symbol .dot, .name b], ?_, ?_⟩
  · simp only [String.append_assoc, String.toList_append]
    refine (Path.splits_bare hx).append (breaks_cons rfl _) ?_
    refine .lexeme rfl rfl <| .lexeme rfl rfl <| .lexeme rfl rfl <| .lexeme rfl rfl ?_
    exact (Path.splits_bare ha).append (breaks_cons rfl _) (.lexeme rfl rfl (Path.splits_bare hb))
  · refine Rule.expression.derivable_pair Rule.name.derivable_nil ?_
    refine (Rule.climb (by decide)).derivable_pair ?_ (Rule.stop (Nat.le_refl 0)).derivable_nil
    refine Rule.everyItemOf.derivable_singleton (Rule.projectedDot.derivable_singleton ?_)
    -- the second step belongs to the right side, for a dot binds more tightly than a star
    refine (Rule.afterDot (Or.inl rfl)).derivable_singleton ?_
    refine Rule.expression.derivable_pair Rule.name.derivable_nil ?_
    have hname : Grammar.front [.name b] ≠ .symbol .star := show Token.Kind.name ≠ _ from nofun
    exact (Rule.climb (by decide)).derivable_pair ((Rule.dot hname).derivable_singleton
      (derivable_afterDot_name (Nat.zero_le _))) (Rule.stop (Nat.zero_le _)).derivable_nil

theorem compile_projectPipe : compile (x ++ "[*]." ++ a ++ " | [*]." ++ b) =
    .ok ⟨x ++ "[*]." ++ a ++ " | [*]." ++ b,
      .pipe (.project (.field x) (.field a)) (.project .identity (.field b))⟩ := by
  refine compile_eq_ok_iff.mpr ⟨rfl, [.name x, .symbol .leftBracket, .symbol .star,
    .symbol .rightBracket, .symbol .dot, .name a, .symbol .pipe, .symbol .leftBracket,
    .symbol .star, .symbol .rightBracket, .symbol .dot, .name b], ?_, ?_⟩
  · simp only [String.append_assoc, String.toList_append]
    refine (Path.splits_bare hx).append (breaks_cons rfl _) ?_
    refine .lexeme rfl rfl <| .lexeme rfl rfl <| .lexeme rfl rfl <| .lexeme rfl rfl ?_
    refine (Path.splits_bare ha).append (breaks_cons rfl _) ?_
    refine .space rfl <| .lexeme rfl rfl <| .space rfl <| .lexeme rfl rfl ?_
    exact .lexeme rfl rfl <| .lexeme rfl rfl <| .lexeme rfl rfl (Path.splits_bare hb)
  · refine Rule.expression.derivable_pair Rule.name.derivable_nil ?_
    refine (Rule.climb (by decide)).derivable_pair (Rule.everyItemOf.derivable_singleton
      (Rule.projectedDot.derivable_singleton
        (derivable_afterDot_name (show 1 ≤ 10 by decide)))) ?_
    refine (Rule.climb (by decide)).derivable_pair (Rule.pipe.derivable_singleton ?_)
      (Rule.stop (Nat.le_refl 0)).derivable_nil
    exact Rule.expression.derivable_pair (Rule.everyItem.derivable_singleton
      (Rule.projectedDot.derivable_singleton (derivable_afterDot_name (Nat.zero_le _))))
      (Rule.stop (Nat.zero_le _)).derivable_nil

/-- Two steps behind a star are two projections in a row. -/
theorem run_projectPath_eq_ok_iff (table : Registry) (v w : Json) :
    run table (x ++ "[*]." ++ a ++ "." ++ b) v = .ok w ↔
      run table (x ++ "[*]." ++ a ++ " | [*]." ++ b) v = .ok w := by
  have hdotted : ((Expr.field a).dotted (.field b)).Composes (.field a) (.field b) :=
    fun table v => Expr.evaluate_dotted table (.field a) (.field b) v
  rw [run_eq_ok_iff (compile_projectPath hx ha hb), run_eq_ok_iff (compile_projectPipe hx ha hb)]
  exact Expr.project_eq_ok_iff_of_composes hdotted rfl .items (.field x) v w

end Names

/-- **Projections distribute over composition.** If the second part takes `null` to `null`, then
a projection of a composition, of any kind, yields a result if and only if the projection of the
first part with a projection of the second one behind a pipe yields it. So two steps behind a
star are two projections in a row. -/
theorem project_composes :
    (∀ (table : Registry) (s : Expr.Sweep) (left first second : Expr) (v x : Json),
      second.evaluate table .null = .ok .null →
      ((s.project left (.pipe first second)).evaluate table v = .ok x ↔
        (Expr.pipe (s.project left first) (.project .identity second)).evaluate table v =
          .ok x)) ∧
    ∀ (table : Registry) (x a b : String),
      Path.isName x = true → Path.isName a = true → Path.isName b = true →
      ∀ v w, run table (x ++ "[*]." ++ a ++ "." ++ b) v = .ok w ↔
        run table (x ++ "[*]." ++ a ++ " | [*]." ++ b) v = .ok w :=
  ⟨fun _ s left first second v x hnull =>
      Expr.project_eq_ok_iff_of_composes (Expr.composes_pipe first second) hnull s left v x,
    fun table _ _ _ hx ha hb v w => run_projectPath_eq_ok_iff hx ha hb table v w⟩

/-- Records of which one has `null` and one has nothing where the first part looks. -/
def records : Json :=
  .object [("x", .array [.object [("a", .null), ("k", .int 1)],
    .object [("a", .object [("b", .int 2)]), ("k", .int 1)], .object []])]

/-- A second part that makes a list of anything but `null`, behind a filter, and the same records
with two steps behind a star. -/
theorem project_composes_of_records (table : Registry) :
    (Expr.list [.field "b", .current]).evaluate table .null = .ok .null ∧
    (Expr.pipe (.projectWhere (.field "x") (.field "a") (.field "k"))
      (.project .identity (.list [.field "b", .current]))).evaluate table records =
        .ok (.array [.array [.int 2, .object [("b", .int 2)]]]) ∧
    Path.isName "x" = true ∧ Path.isName "a" = true ∧ Path.isName "b" = true ∧
    run table "x[*].a | [*].b" records = .ok (.array [.int 2]) := by
  have hpath := compile_projectPath (x := "x") (a := "a") (b := "b") rfl rfl rfl
  refine ⟨rfl, ?_, rfl, rfl, rfl, ?_⟩
  · exact (project_composes.1 table (.itemsWhere (.field "k")) (.field "x") (.field "a")
      (.list [.field "b", .current]) records _ rfl).mp rfl
  · exact (project_composes.2 table "x" "a" "b" rfl rfl rfl records _).mp
      ((run_eq_ok_iff hpath table records _).mpr rfl)

end Query

end JsonQuery
