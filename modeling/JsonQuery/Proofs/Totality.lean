import JsonQuery.Proofs.FaultOrigins
import JsonQuery.Proofs.Slicing
import JsonQuery.Proofs.TableAgreement

/-!
# Expressions that always have a value

Where a value is not of the shape that an expression asks for, the expression yields `null`. So
there are only two forms of expression that can fail by themselves, a call and a slice whose
step is zero (`JsonQuery.Expr.canFail`), and an expression in which neither of them occurs has
a value on every document, whatever the table of functions is
(`JsonQuery.Expr.exists_evaluate`). All that can come in between is a slice with a step so long
that it overflows, and that is no matter of how slices are evaluated: walking along the array
overflows just then.

That is what remains of where faults come from if they have nowhere to come from. The functions
of the table need not relay faults here, as they do in `JsonQuery.Proofs.FaultOrigins`: nothing
is called, so they may as well be left out.
-/

namespace JsonQuery

/-- In the table without functions all functions relay. -/
theorem Registry.relays_empty : Registry.empty.Relays :=
  fun _ hf => absurd hf List.not_mem_nil

namespace Expr

/-- Whether an expression **can fail** by itself, apart from what is below it. -/
def canFail : Expr → Bool
  | call .. => true
  | slice _ _ (some 0) => true
  | _ => false

variable {e : Expr}

/-- Faults arise only where something can fail. -/
theorem not_arisesIn_of_canFail {table : Registry} (h : ∀ x ∈ e.nodes, x.canFail = false)
    (f : Fault) : ¬f.ArisesIn table e := by
  intro hf
  cases f with
  | call name complaint =>
    obtain ⟨-, args, hcall⟩ := hf
    exact absurd (h _ hcall) (by simp [canFail])
  | unknownFunction name =>
    obtain ⟨-, args, hcall⟩ := hf
    exact absurd (h _ hcall) (by simp [canFail])
  | zeroStep =>
    obtain ⟨start, stop, hslice⟩ := hf
    exact absurd (h _ hslice) (by simp [canFail])
  | badToken | badSyntax | unfinished | overflow => exact hf

/-- Where nothing can fail, nothing is called. -/
theorem calledNames_eq_nil (h : ∀ x ∈ e.nodes, x.canFail = false) : e.calledNames = [] := by
  rw [calledNames, List.filterMap_eq_nil_iff]
  intro x hx
  have hx := h x hx
  cases x with
  | call name args => exact absurd hx (by simp [canFail])
  | _ => rfl

/-- Where nothing can fail, every slice moves. -/
theorem getD_ne_zero_of_canFail (h : ∀ x ∈ e.nodes, x.canFail = false)
    {start stop step : Option Int} (hslice : slice start stop step ∈ e.nodes) :
    step.getD 1 ≠ 0 := by
  intro hzero
  have hsome : step = some 0 :=
    (Option.getD_eq_iff.mp hzero).resolve_right fun hnone => absurd hnone.2 (by decide)
  rw [hsome] at hslice
  exact absurd (h _ hslice) (by simp [canFail])

/-- **What cannot fail has a value**, on every document and with every table of functions, as
long as the step of no slice leads from a place of an array to where words do not reach; steps
of one place and steps backward never do. And so does the walk of every slice in it, in words
of sixty-four bits: on arrays that are short enough for a step from an item to be a word, it
comes to an end with what the slice evaluates to. On longer ones it does so as well, or both
overflow. -/
theorem exists_evaluate (h : ∀ x ∈ e.nodes, x.canFail = false) :
    (∀ table v, (∃ w, e.evaluate table v = .ok w) ∨
      ∃ f, e.evaluate table v = .error f ∧ f.OverflowsIn e) ∧
    ((∀ start stop step, slice start stop (some step) ∈ e.nodes → step ≤ 1) →
      ∀ table v, ∃ w, e.evaluate table v = .ok w) ∧
    (∀ start stop step, slice start stop step ∈ e.nodes →
      (∀ bound ∈ start, Number.fitsSigned bound = true) →
      (∀ bound ∈ stop, Number.fitsSigned bound = true) →
      ∀ items : List Json, (step.getD 1).natAbs + items.length < 9223372036854775808 →
        ∃ picked, (∀ fuel, items.length < fuel →
            Walk.slice items start stop step fuel = some (.ok picked)) ∧
          ∀ table, evaluate table (.slice start stop step) (.array items) =
            .ok (.array picked)) ∧
    ∀ start stop step, slice start stop step ∈ e.nodes →
      (∀ bound ∈ start, Number.fitsSigned bound = true) →
      (∀ bound ∈ stop, Number.fitsSigned bound = true) →
      (∀ bound ∈ step, Number.fitsSigned bound = true) →
      ∀ items : List Json, items.length < 9223372036854775808 →
        ∀ fuel, items.length < fuel → ∀ table,
          (∃ picked, Walk.slice items start stop step fuel = some (.ok picked) ∧
            evaluate table (.slice start stop step) (.array items) = .ok (.array picked)) ∨
          (Walk.slice items start stop step fuel = some (.error .overflow) ∧ ∃ place : Int,
            evaluate table (.slice start stop step) (.array items) =
              .error (.overflow place (step.getD 1))) := by
  have hvalue : ∀ table v, (∃ w, e.evaluate table v = .ok w) ∨
      ∃ f, e.evaluate table v = .error f ∧ f.OverflowsIn e := by
    intro table v
    have hagree : Registry.AgreeOn e.calledNames table .empty := by
      rw [calledNames_eq_nil h]
      exact fun _ hname => absurd hname List.not_mem_nil
    rw [evaluate_congr_of_mem_nodes hagree e (mem_nodes_self e)]
    cases hresult : e.evaluate .empty v with
    | ok w => exact Or.inl ⟨w, rfl⟩
    | error f =>
      have hfrom := failsBy_evaluate_of_mem_nodes Registry.relays_empty e e (mem_nodes_self e)
        v f hresult
      exact Or.inr ⟨f, rfl, hfrom.resolve_left (not_arisesIn_of_canFail h f)⟩
  refine ⟨hvalue, fun hshort table v => ?_,
    fun start stop step hslice hstart hstop items hsmall => ?_,
    fun start stop step hslice hstart hstop hword items hlength fuel hfuel table => ?_⟩
  · refine (hvalue table v).resolve_right ?_
    rintro ⟨f, -, hover⟩
    obtain ⟨place, step, rfl⟩ := hover.exists_eq
    obtain ⟨-, hlong, -, start, stop, hslice⟩ := hover
    exact Int.not_le.mpr hlong (hshort start stop step hslice)
  · obtain ⟨hevaluate, hwalk⟩ :=
      evaluate_slice_of_small hstart hstop (getD_ne_zero_of_canFail h hslice) hsmall
    exact ⟨_, hwalk, hevaluate⟩
  · exact evaluate_slice_walk hlength hstart hstop hword (getD_ne_zero_of_canFail h hslice) hfuel
      table

/-- The forms that are applied to values of other shapes than they ask for, one inside the
other. -/
theorem exists_evaluate_of_misfits :
    let e := projectWhere (flatten (project (index 2) (slice none (some 7) (some (-3)))))
      (hash [("a", projectValues current (reference (field "b"))), ("c", list [identity])])
      (or (compare .lt (field "d") (literal (.array []))) (not (path [field "e", index (-1)])))
    (∀ table v, ∃ w, e.evaluate table v = .ok w) ∧
      ∃ picked, Walk.slice [Json.null, .null] none (some 7) (some (-3)) 3 = some (.ok picked) := by
  intro e
  have hnodes : ∀ x ∈ e.nodes, x.canFail = false := by
    simp [e, nodes_eq, children, canFail]
  have hslice : slice none (some 7) (some (-3)) ∈ e.nodes := by
    simp [e, nodes_eq, children]
  have hshort : ∀ start stop step, slice start stop (some step) ∈ e.nodes → step ≤ 1 := by
    intro start stop step hmem
    obtain ⟨-, -, rfl⟩ : start = none ∧ stop = some 7 ∧ step = -3 := by
      simpa [e, nodes_eq, children] using hmem
    decide
  obtain ⟨-, hvalue, hwalk, -⟩ := exists_evaluate hnodes
  obtain ⟨picked, hpicked, -⟩ := hwalk _ _ _ hslice (by decide) (by decide) [.null, .null]
    (by decide)
  exact ⟨hvalue hshort, picked, hpicked 3 (by decide)⟩

end Expr

end JsonQuery
