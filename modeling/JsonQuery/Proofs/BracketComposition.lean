import JsonQuery.Proofs.Compilation
import JsonQuery.Proofs.Derivation.Extension

/-!
# Queries between brackets

A text between brackets means what it means alone. Take some queries and write them
between parentheses, behind the name of a function, in a list or under keys: the result
compiles to the group, the call, the list or the keyed list of *the very expressions* that
the queries compile to, unless it nests too deeply
(`JsonQuery.Query.compiles_between_brackets`).

On the side of the lexemes there is little to do. A query is read alone up to the end of
its text; a comma and a closing symbol have no power, so it is read in the same way in
front of them (`JsonQuery.Grammar.Derivable.extend`). On the side of the text each piece
has to break off the lexeme before it, which blanks, commas and closing symbols do.

The three kinds of lists are treated as one. What makes up a list is a rule for its last
item and a rule for an item before others (`JsonQuery.Query.holds_intercalate`).
-/

namespace JsonQuery

open Token (Lexeme)
open Grammar (Part Rule Derivable Identifier maxNesting)
open Scan (Splits Breaks)

namespace Query

/-! ### Texts that hold a part -/

/-- That a text **holds** a part of an expression, and nothing behind it. -/
def Holds (L : Nat) (part : Part) (text : String) : Prop :=
  ∃ ls, Splits text.toList ls ∧ Derivable ⟨L, part, ls, []⟩

/-- That a text is a single lexeme. -/
def IsLexeme (text : String) (l : Lexeme) : Prop :=
  ∃ start stop length, Scan.ofChars text.toList = ⟨[⟨l, start, stop⟩], .finished length⟩

theorem IsLexeme.splits {text : String} {l : Lexeme} (h : IsLexeme text l) :
    Splits text.toList [l] := by
  obtain ⟨start, stop, length, hscan⟩ := h
  exact Scan.splits_of_startingAt hscan

theorem isLexeme_of_splits {text : String} {l : Lexeme} (h : Splits text.toList [l]) :
    IsLexeme text l := by
  obtain ⟨ts, length, hscan, hts⟩ := Scan.exists_startingAt_of_splits h 0
  match ts, hts with
  | [⟨_, start, stop⟩], rfl => exact ⟨start, stop, length, hscan⟩

/-- A query is read in front of a symbol without power as it is read alone. -/
theorem exists_splits_before {q : Query} (h : compile q.text = .ok q) :
    ∃ ls, Splits q.text.toList ls ∧ ∀ {s : Symbol}, s.power = 0 → ∀ tail,
      Derivable ⟨maxNesting, .expression 0 q.expr, ls ++ .symbol s :: tail,
        .symbol s :: tail⟩ := by
  obtain ⟨-, ls, hs, hd⟩ := derivable_of_compile h
  refine ⟨ls, hs, fun {s} hs tail => ?_⟩
  have hpower : (Grammar.front (.symbol s :: tail)).power = 0 := hs
  exact hd.extend (.symbol s :: tail) (by omega) (fun _ => Nat.le_of_eq hpower)
    fun _ _ _ => hpower

/-! ### Lists -/

/-- **A text holds a list** if its last item may be closed and every other item may stand
before a list that is held. -/
theorem holds_intercalate {α β : Type} {L : Nat} {P : List β → Part} {value : α → β}
    {text : α → String} {comma closing : String} {as : List α} (hne : as ≠ [])
    (last : ∀ a ∈ as, Holds L (P [value a]) (text a ++ closing))
    (more : ∀ a ∈ as, ∀ {bs t}, Holds L (P bs) t →
      Holds L (P (value a :: bs)) (text a ++ comma ++ t)) :
    Holds L (P (as.map value)) (comma.intercalate (as.map text) ++ closing) := by
  induction as with
  | nil => exact absurd rfl hne
  | cons a as ih =>
    cases as with
    | nil => simpa using last a (List.mem_singleton_self a)
    | cons b bs =>
      have hmore := more a List.mem_cons_self <| ih (List.cons_ne_nil b bs)
        (fun c hc => last c (List.mem_cons_of_mem a hc))
        (fun c hc => more c (List.mem_cons_of_mem a hc))
      simpa [String.append_assoc] using hmore

/-- What stands between two texts breaks off the first one. -/
theorem splits_between {s separator t : String} {ls ms : List Lexeme}
    (hs : Splits s.toList ls) (hbreaks : Breaks (separator.toList ++ t.toList))
    (ht : Splits (separator.toList ++ t.toList) ms) :
    Splits (s ++ separator ++ t).toList (ls ++ ms) := by
  rw [String.append_assoc, String.toList_append, String.toList_append]
  exact hs.append hbreaks ht

theorem splits_before {s closing : String} {ls ms : List Lexeme} (hs : Splits s.toList ls)
    (hbreaks : Breaks closing.toList) (hclosing : Splits closing.toList ms) :
    Splits (s ++ closing).toList (ls ++ ms) := by
  rw [String.toList_append]
  exact hs.append hbreaks hclosing

/-- **Queries with commas between them** make up a list of expressions, be they items or
arguments. -/
theorem holds_separated {P : List Expr → Part} {s : Symbol} {closing : String} {qs : List Query}
    (hne : qs ≠ []) (hqs : ∀ q ∈ qs, compile q.text = .ok q) (hs : s.power = 0)
    (hbreaks : Breaks closing.toList) (hclosing : Splits closing.toList [.symbol s])
    (last : ∀ {L e ls rest}, Rule ⟨L, P [e], ls, rest⟩
      [⟨L, .expression 0 e, ls, .symbol s :: rest⟩])
    (more : ∀ {L e es ls mid rest}, Rule ⟨L, P (e :: es), ls, rest⟩
      [⟨L, .expression 0 e, ls, .symbol .comma :: mid⟩, ⟨L, P es, mid, rest⟩]) :
    Holds maxNesting (P (qs.map expr)) (" , ".intercalate (qs.map text) ++ closing) := by
  refine holds_intercalate hne (fun q hq => ?_) fun q hq es t ht => ?_
  · obtain ⟨ls, hsplits, hd⟩ := exists_splits_before (hqs q hq)
    exact ⟨_, splits_before hsplits hbreaks hclosing, last.derivable_singleton (hd hs [])⟩
  · obtain ⟨ls, hsplits, hd⟩ := exists_splits_before (hqs q hq)
    obtain ⟨ms, hm, hmore⟩ := ht
    refine ⟨_, splits_between hsplits (Scan.breaks_cons rfl _) ?_,
      more.derivable_pair (hd rfl ms) hmore⟩
    exact .space rfl (.lexeme rfl rfl (.space rfl hm))

/-- A key as it is written, the identifier that it is, and the query under it. -/
structure Entry where
  /-- The text of the key. -/
  keyText : String
  /-- The key. -/
  key : Identifier
  /-- The query. -/
  query : Query

theorem splits_entry {e : Entry} {ls : List Lexeme} {rest : String}
    (hkey : IsLexeme e.keyText e.key.lexeme)
    (h : Splits (e.query.text ++ rest).toList ls) :
    Splits (e.keyText ++ ": " ++ e.query.text ++ rest).toList
      (e.key.lexeme :: .symbol .colon :: ls) := by
  rw [String.append_assoc]
  exact splits_between hkey.splits (Scan.breaks_cons rfl _) (.lexeme rfl rfl (.space rfl h))

/-- **Queries under keys** make up the entries of a keyed list. -/
theorem holds_entries {es : List Entry} (hne : es ≠ [])
    (hes : ∀ e ∈ es, compile e.query.text = .ok e.query)
    (hkeys : ∀ e ∈ es, IsLexeme e.keyText e.key.lexeme) :
    Holds maxNesting (.entries (es.map fun e => (e.key.text, e.query.expr)))
      (", ".intercalate (es.map fun e => e.keyText ++ ": " ++ e.query.text) ++ "\x7d") := by
  refine holds_intercalate hne (fun e he => ?_) fun e he entries t ht => ?_
  · obtain ⟨ls, hsplits, hd⟩ := exists_splits_before (hes e he)
    refine ⟨_, splits_entry (hkeys e he) (splits_before hsplits (Scan.breaks_cons rfl _) ?_),
      (Rule.lastEntry e.key.lexeme_eq_or).derivable_singleton (hd rfl [])⟩
    exact .lexeme rfl rfl .nil
  · obtain ⟨ls, hsplits, hd⟩ := exists_splits_before (hes e he)
    obtain ⟨ms, hm, hmore⟩ := ht
    have hsplits' : Splits (e.query.text ++ (", " ++ t)).toList (ls ++ .symbol .comma :: ms) := by
      rw [← String.append_assoc]
      exact splits_between hsplits (Scan.breaks_cons rfl _) (.lexeme rfl rfl (.space rfl hm))
    refine ⟨_, ?_, (Rule.entry e.key.lexeme_eq_or).derivable_pair (hd rfl ms) hmore⟩
    rw [String.append_assoc]
    exact splits_entry (hkeys e he) hsplits'

/-! ### Brackets around what is held -/

/-- What an operand compiles to that nothing stands behind. -/
theorem compiles_of_operand {text : String} {ls : List Lexeme} {L : Nat} {e : Expr}
    (hs : Splits text.toList ls) (h : Derivable ⟨L, .operand e, ls, []⟩) :
    CompilesUpToDepth text e :=
  compilesUpToDepth_of_derivable hs
    (Rule.expression.derivable_pair h (Rule.stop (Nat.le_refl 0)).derivable_nil)

theorem compiles_group {q : Query} (h : compile q.text = .ok q) :
    CompilesUpToDepth ("( " ++ q.text ++ " )") q.expr := by
  obtain ⟨ls, hs, hd⟩ := exists_splits_before h
  have htext : Splits ("( " ++ q.text ++ " )").toList
      (.symbol .leftParen :: (ls ++ [.symbol .rightParen])) := by
    rw [String.append_assoc, String.toList_append]
    refine .lexeme rfl rfl (.space rfl ?_)
    exact splits_before hs (Scan.breaks_cons rfl _) (.space rfl (.lexeme rfl rfl .nil))
  exact compiles_of_operand htext (Rule.group.derivable_singleton (hd rfl []))

/-- A list that starts with a star and a closing bracket has one item. -/
theorem eq_singleton_of_star {L : Nat} {es : List Expr} {more rest : List Lexeme}
    (h : Derivable ⟨L, .items es, .symbol .star :: .symbol .rightBracket :: more, rest⟩) :
    more = rest ∧ ∃ e, es = [e] := by
  have hexpression {e : Expr} {after : List Lexeme} (h : Derivable ⟨L, .expression 0 e,
      .symbol .star :: .symbol .rightBracket :: more, after⟩) :
      after = .symbol .rightBracket :: more := by
    obtain ⟨K, left, mid, -, ⟨hr, hpremises⟩, hclimb⟩ := h.expression_cases
    cases hr with
    | values =>
      obtain ⟨hr, -⟩ := hpremises _ (List.mem_singleton_self _)
      cases hr with
      | unprojected => exact (hclimb.climb_of_power_le (Nat.le_refl 0)).2
  obtain ⟨hr, hpremises⟩ := h
  cases hr with
  | @lastItem _ e =>
    obtain ⟨-, rfl⟩ := List.cons.inj (hexpression (hpremises _ (List.mem_singleton_self _)))
    exact ⟨rfl, e, rfl⟩
  | item => cases hexpression (hpremises _ List.mem_cons_self)

theorem compiles_list {qs : List Query} (hne : qs ≠ [])
    (hqs : ∀ q ∈ qs, compile q.text = .ok q)
    (hstar : ∀ q, qs = [q] → ¬IsLexeme q.text (.symbol .star)) :
    CompilesUpToDepth ("[ " ++ " , ".intercalate (qs.map text) ++ " ]") (.list (qs.map expr)) := by
  have hbreaks : Breaks " ]".toList := Scan.breaks_cons rfl _
  have hclosing : Splits " ]".toList [.symbol .rightBracket] := .space rfl (.lexeme rfl rfl .nil)
  obtain ⟨ls, hs, hd⟩ := holds_separated hne hqs rfl hbreaks hclosing .lastItem .item
  have htext : Splits ("[ " ++ " , ".intercalate (qs.map text) ++ " ]").toList
      (.symbol .leftBracket :: ls) := by
    rw [String.append_assoc, String.toList_append]
    exact .lexeme rfl rfl (.space rfl hs)
  refine compiles_of_operand htext ((Rule.list ?_).derivable_singleton hd)
  rintro more rfl
  -- then the list is a star alone
  obtain ⟨rfl, e, he⟩ := eq_singleton_of_star hd
  obtain ⟨q, rfl, -⟩ := List.map_eq_singleton_iff.mp he
  obtain ⟨ms, hm, -⟩ := exists_splits_before (hqs q (List.mem_singleton_self q))
  have htexts : " , ".intercalate [q.text] ++ " ]" = q.text ++ " ]" := by simp
  rw [List.map_singleton, htexts] at hs
  have hunique : [.symbol .star] ++ [.symbol .rightBracket] = ms ++ [.symbol .rightBracket] :=
    hs.unique (splits_before hm hbreaks hclosing)
  obtain rfl := List.append_cancel_right hunique
  exact hstar q rfl (isLexeme_of_splits hm)

theorem compiles_hash {text : String} {es : List (String × Expr)}
    (h : Holds maxNesting (.entries es) text) : CompilesUpToDepth ("\x7b" ++ text) (.hash es) := by
  obtain ⟨ls, hs, hd⟩ := h
  have htext : Splits ("\x7b" ++ text).toList (.symbol .leftBrace :: ls) := by
    rw [String.toList_append]
    exact .lexeme rfl rfl hs
  exact compiles_of_operand htext (Rule.hash.derivable_singleton hd)

theorem compiles_call {f text name : String} {args : List Expr} (hf : IsLexeme f (.name name))
    (h : Holds maxNesting (.arguments args) text) :
    CompilesUpToDepth (f ++ "( " ++ text) (.call name args) := by
  obtain ⟨ls, hs, hd⟩ := h
  have htext : Splits (f ++ "( " ++ text).toList (.name name :: .symbol .leftParen :: ls) :=
    splits_between hf.splits (Scan.breaks_cons rfl _) (.lexeme rfl rfl (.space rfl hs))
  exact compilesUpToDepth_of_derivable htext <|
    Rule.expression.derivable_pair Rule.name.derivable_nil <|
      (Rule.climb (by decide)).derivable_pair (Rule.call.derivable_singleton hd)
        (Rule.stop (Nat.le_refl 0)).derivable_nil

/-! ### All brackets -/

/-- **Queries between brackets.** -/
theorem compiles_between_brackets {qs : List Query} (hne : qs ≠ [])
    (hqs : ∀ q ∈ qs, compile q.text = .ok q) :
    (∀ q ∈ qs, CompilesUpToDepth ("( " ++ q.text ++ " )") q.expr) ∧
    (∀ f name, IsLexeme f (.name name) →
      CompilesUpToDepth (f ++ "( " ++ " , ".intercalate (qs.map text) ++ " )")
        (.call name (qs.map expr))) ∧
    ((∀ q, qs = [q] → ¬IsLexeme q.text (.symbol .star)) →
      CompilesUpToDepth ("[ " ++ " , ".intercalate (qs.map text) ++ " ]")
        (.list (qs.map expr))) ∧
    ∀ es : List Entry, es.map Entry.query = qs →
      (∀ e ∈ es, IsLexeme e.keyText e.key.lexeme) →
      CompilesUpToDepth
        ("\x7b" ++ ", ".intercalate (es.map fun e => e.keyText ++ ": " ++ e.query.text) ++ "\x7d")
        (.hash (es.map fun e => (e.key.text, e.query.expr))) := by
  refine ⟨fun q hq => compiles_group (hqs q hq), fun f name hf => ?_, compiles_list hne hqs,
    fun es hes hkeys => ?_⟩
  · have hbreaks : Breaks " )".toList := Scan.breaks_cons rfl _
    have hclosing : Splits " )".toList [.symbol .rightParen] :=
      .space rfl (.lexeme rfl rfl .nil)
    rw [String.append_assoc]
    exact compiles_call hf (holds_separated hne hqs rfl hbreaks hclosing .lastArgument .argument)
  · rw [String.append_assoc]
    subst hes
    refine compiles_hash (holds_entries ?_ (fun e he => ?_) hkeys)
    · rintro rfl
      exact hne rfl
    · exact hqs e.query (List.mem_map_of_mem he)

/-- A projection and an alternative as the arguments of a call. -/
theorem compiles_call_of_two : ∃ p q, compile "a[*]" = .ok p ∧ compile "b || c" = .ok q ∧
    compile "f( a[*] , b || c )" = .ok ⟨"f( a[*] , b || c )", .call "f" [p.expr, q.expr]⟩ := by
  obtain ⟨p, hp⟩ := exists_of_isOk (show (compile "a[*]").isOk = true by decide +kernel)
  obtain ⟨q, hq⟩ := exists_of_isOk (show (compile "b || c").isOk = true by decide +kernel)
  refine ⟨p, q, hp, hq, ?_⟩
  have hptext := (derivable_of_compile hp).1
  have hqtext := (derivable_of_compile hq).1
  have hall : ∀ o ∈ [p, q], compile o.text = .ok o := by
    rw [List.forall_mem_cons, List.forall_mem_singleton, hptext, hqtext]
    exact ⟨hp, hq⟩
  have hcall := (compiles_between_brackets (List.cons_ne_nil p [q]) hall).2.1 "f" "f"
    (isLexeme_of_splits (.lexeme rfl rfl .nil))
  have htext : "f" ++ "( " ++ " , ".intercalate ["a[*]", "b || c"] ++ " )" =
      "f( a[*] , b || c )" := by decide
  rw [List.map_cons, List.map_singleton, hptext, hqtext, htext] at hcall
  exact hcall.eq_ok (by decide +kernel)

end Query

end JsonQuery
