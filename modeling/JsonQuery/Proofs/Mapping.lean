import JsonQuery.Expr.Evaluation
import JsonQuery.Library

/-!
# Mapping and projecting

The function `map` evaluates an expression on every item of an array, and so does a
projection. They get there in different ways. The call hands the expression over as an
argument, has its arguments checked against a signature, and meets a fault of the expression
inside a body, where it becomes a failure and has to be turned back into the fault that it
was. The projection evaluates its right side at once. What a call yields is nevertheless what
the expression yields on the items, `null` included, and what the projection yields is that
without the `null`s (`JsonQuery.Library.map_agrees`).

Both stop at the first item on which the expression fails, with the fault that it has there
(`JsonQuery.mapM_eq_error_iff`). Nothing is asked of the expression, which may well call `map`
itself: a fault passes through any number of calls as it is.
-/

namespace JsonQuery

/-! ### One after the other -/

section Traversal

variable {ε ε' α β : Type}

/-- Going through some values with other words for what goes wrong. -/
theorem mapM_mapError (h : ε → ε') (k : α → Except ε β) (as : List α) :
    (as.mapM fun a => (k a).mapError h) = (as.mapM k).mapError h := by
  induction as with
  | nil => rfl
  | cons a as ih =>
    rw [List.mapM_cons, List.mapM_cons, ih]
    rcases k a with e | b
    · rfl
    · rcases as.mapM k with e | bs <;> rfl

theorem map_eq_error_iff {x : Except ε α} {h : α → β} {e : ε} :
    x.map h = .error e ↔ x = .error e := by
  rcases x with e' | a
  · exact ⟨fun he => congrArg _ (Except.error.inj he), fun he => congrArg _ (Except.error.inj he)⟩
  · exact ⟨nofun, nofun⟩

/-- It goes wrong at the first value, or not there but further on. -/
theorem mapM_cons_eq_error_iff {k : α → Except ε β} {a : α} {as : List α} {e : ε} :
    (a :: as).mapM k = .error e ↔
      k a = .error e ∨ (∃ b, k a = .ok b) ∧ as.mapM k = .error e := by
  rw [List.mapM_cons]
  rcases k a with e' | b
  · constructor
    · exact fun he => Or.inl (congrArg _ (Except.error.inj he))
    · rintro (he | ⟨⟨b, hb⟩, -⟩)
      · exact congrArg _ (Except.error.inj he)
      · cases hb
  · have hrest : (as.mapM k).map (fun bs => b :: bs) = .error e ↔ as.mapM k = .error e :=
      map_eq_error_iff
    constructor
    · exact fun he => Or.inr ⟨⟨b, rfl⟩, hrest.mp he⟩
    · rintro (he | ⟨-, he⟩)
      · cases he
      · exact hrest.mpr he

/-- **What goes wrong first** is what goes wrong. -/
theorem mapM_eq_error_iff {k : α → Except ε β} {as : List α} {e : ε} :
    as.mapM k = .error e ↔ ∃ before a after, as = before ++ a :: after ∧
      (∀ a' ∈ before, ∃ b, k a' = .ok b) ∧ k a = .error e := by
  induction as with
  | nil =>
    refine ⟨nofun, ?_⟩
    rintro ⟨before, a, after, hnil, -⟩
    cases before <;> cases hnil
  | cons a as ih =>
    rw [mapM_cons_eq_error_iff, ih]
    constructor
    · rintro (he | ⟨hfirst, before, a', after, rfl, hbefore, he⟩)
      · exact ⟨[], a, as, rfl, nofun, he⟩
      · exact ⟨a :: before, a', after, rfl, List.forall_mem_cons.mpr ⟨hfirst, hbefore⟩, he⟩
    · rintro ⟨_ | ⟨a', before⟩, a'', after, hsplit, hbefore, he⟩
      · obtain ⟨rfl, -⟩ := List.cons.inj hsplit
        exact Or.inl he
      · obtain ⟨rfl, hrest⟩ := List.cons.inj hsplit
        obtain ⟨hfirst, hbefore⟩ := List.forall_mem_cons.mp hbefore
        exact Or.inr ⟨hfirst, before, a'', after, hrest, hbefore, he⟩

end Traversal

/-! ### What a call yields -/

namespace Library

theorem run_eq_mapError (g : Json → Except Fault Json) (v : Json) :
    Argument.run g v = (g v).mapError .evaluation := by
  rw [Argument.run]
  rcases g v with f | w <;> rfl

/-- The signature has nothing against an expression and an array. -/
theorem invoke_map (body : Expr) (g : Json → Except Fault Json) (items : List Json) :
    map.invoke [.reference ⟨body, g⟩, .value (.array items)] =
      ((items.mapM g).mapError .evaluation).map .array := by
  have hbody : map.invoke [.reference ⟨body, g⟩, .value (.array items)] =
      (items.mapM (Argument.run g)).map .array := rfl
  have hrun : Argument.run g = fun v => (g v).mapError .evaluation := by
    funext v
    exact run_eq_mapError g v
  rw [hbody, hrun, mapM_mapError]

/-- **A call of `map`** fails with the fault of the expression, as it is. -/
theorem callIn_map {table : Registry} (htable : table.get? "map" = some map)
    (body : Expr) (g : Json → Except Fault Json) (items : List Json) :
    Expr.callIn table "map" [.reference ⟨body, g⟩, .value (.array items)] =
      (items.mapM g).map .array := by
  rw [Expr.callIn, htable]
  dsimp only
  rw [invoke_map]
  rcases items.mapM g with f | results <;> rfl

end Library

namespace Expr

variable {table : Registry} {left right : Expr} {v : Json} {items : List Json}

section Left

variable (hleft : evaluate table left v = .ok (.array items))
include hleft

theorem evaluate_project_of_array : evaluate table (project left right) v =
    (items.mapM (evaluate table right)).map fun results => .array (dropNulls results) := by
  rw [evaluate, hleft]
  rfl

/-- The array is the second argument: no array is the value of a reference. -/
theorem evaluate_map_of_array (htable : table.get? "map" = some Library.map) :
    evaluate table (call "map" [reference right, left]) v =
      (items.mapM (evaluate table right)).map .array := by
  have hreference : ∀ body, left ≠ reference body := by
    rintro body rfl
    cases hleft
  have hargs : evaluateArguments table [reference right, left] v =
      .ok [.reference ⟨right, evaluate table right⟩, .value (.array items)] := by
    rw [evaluateArguments, evaluateArguments_cons hreference, hleft]
    rfl
  rw [evaluate, hargs]
  exact Library.callIn_map htable right (evaluate table right) items

end Left

end Expr

namespace Library

/-- **A call of `map` agrees with a projection.** On an array the one fails with a fault if and
only if the other does, and that is the fault of the first item on which the expression fails.
What a call yields otherwise has everything in it that the projection yields, and `null`
besides. -/
theorem map_agrees {table : Registry} (htable : table.get? "map" = some map) {left right : Expr}
    {v : Json} {items : List Json} (hleft : left.evaluate table v = .ok (.array items)) :
    (∀ f, (Expr.call "map" [.reference right, left]).evaluate table v = .error f ↔
      (Expr.project left right).evaluate table v = .error f) ∧
    (∀ f, (Expr.project left right).evaluate table v = .error f ↔
      ∃ before item after, items = before ++ item :: after ∧
        (∀ w ∈ before, ∃ u, right.evaluate table w = .ok u) ∧
        right.evaluate table item = .error f) ∧
    ∀ w, (Expr.call "map" [.reference right, left]).evaluate table v = .ok w →
      ∃ results, w = .array results ∧ (Expr.project left right).evaluate table v =
        .ok (.array (results.filter fun u => !u.isNull)) := by
  rw [Expr.evaluate_map_of_array hleft htable, Expr.evaluate_project_of_array hleft]
  refine ⟨fun f => ?_, fun f => ?_, ?_⟩
  · rw [map_eq_error_iff, map_eq_error_iff]
  · rw [map_eq_error_iff, mapM_eq_error_iff]
  · rcases items.mapM (right.evaluate table) with f | results
    · exact nofun
    · exact fun w hw => ⟨results, (Except.ok.inj hw).symm, rfl⟩

/-- Records of which only the first has an array to go over. -/
def nestedRecords : List Json :=
  [.object [("b", .array [.object [("a", .int 1)], .null])], .object []]

/-- An expression that calls `map` itself, and fails on the second of two items. -/
theorem map_agrees_of_nested :
    let right := Expr.call "map" [.reference (.field "a"), .field "b"]
    let fault := Fault.call "map" (.type .null ["array"] "null")
    Registry.standard.get? "map" = some map ∧
    (Expr.field "x").evaluate .standard (.object [("x", .array nestedRecords)]) =
      .ok (.array nestedRecords) ∧
    (Expr.project (.field "x") right).evaluate .standard
      (.object [("x", .array nestedRecords)]) = .error fault ∧
    ∃ before item after, nestedRecords = before ++ item :: after ∧
      (∀ w ∈ before, ∃ u, right.evaluate .standard w = .ok u) ∧
      right.evaluate .standard item = .error fault := by
  intro right fault
  have hleft : (Expr.field "x").evaluate .standard (.object [("x", .array nestedRecords)]) =
      .ok (.array nestedRecords) := rfl
  obtain ⟨hcall, hfirst, -⟩ := @map_agrees .standard rfl _ right _ _ hleft
  have hproject := (hcall fault).mp rfl
  exact ⟨rfl, hleft, hproject, (hfirst fault).mp hproject⟩

end Library

end JsonQuery
