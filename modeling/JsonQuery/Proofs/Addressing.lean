import JsonQuery.Proofs.Chains
import JsonQuery.Proofs.Compilation
import JsonQuery.Proofs.ReadingBack
import JsonQuery.Query.Search

/-!
# Every value has an address

A **path** is a list of steps, keys and positions, and it leads from a document to a value
somewhere inside (`JsonQuery.Path.Leads`). Written as a text (`JsonQuery.Path.rendering`) it
is a query, and what the query yields on the document is that value.

The text splits into the lexemes of the steps one after the other, for a step that is not the
first one starts with a dot or a bracket, and both break off what is before them. The
expression that is read has another shape than the path. Behind a dot all positions up to the
next dot are read first, with the power of a dot, and so they belong to the right side of the
dot; then the next dot takes all of that as its left side. Only the positions behind the very
first key or position are read one by one. None of this is visible in the value: an
expression that was read behind another one **extends** it (`JsonQuery.Path.Extends`) by the
steps it was read from, and that is all that is said about it.

A step takes one level, and what a dot has on its right side takes at most as many levels as
there are steps in it and one more. So a path of fewer steps than there are levels does not
nest too deeply.
-/

namespace JsonQuery

open Token (Lexeme Kind)
open Grammar (Rule Derivable front)
open Scan (Splits Breaks isNameStart isNamePart)

namespace Path

/-! ### Paths and their texts -/

/-- Whether a key may be written without quotation marks: it starts with a letter or a low
line and goes on with these and digits. -/
def isName (key : String) : Bool :=
  match key.toList with
  | [] => false
  | c :: rest => isNameStart c && rest.all isNamePart

/-- A **step** of a path. -/
inductive Step where
  /-- To the value under a key, which is written between quotation marks. -/
  | quoted (key : String)
  /-- To the value under a key, which is written as it is. -/
  | bare (key : String) (h : isName key = true)
  /-- To the item at a position; a negative one counts from the end. Positions are numbers of
  sixty-four signed bits, which go further than any array in memory. -/
  | index (position : Int) (h : Number.fitsSigned position = true)

namespace Step

/-- The key of a step. -/
def key? : Step → Option String
  | quoted key | bare key _ => some key
  | index .. => none

/-- The text of a step that nothing stands before. -/
def text : Step → String
  | quoted key => String.ofList (Json.quoted key)
  | bare key _ => key
  | index position _ => "[" ++ toString position ++ "]"

/-- The text of a step behind others: a key has a dot before it. -/
def textBehind (s : Step) : String :=
  match s with
  | quoted _ | bare .. => "." ++ s.text
  | index .. => s.text

/-- **Where a step leads.** -/
inductive Leads : Step → Json → Json → Prop
  /-- From an object to the value under a key. -/
  | key {s : Step} {key : String} {entries : List (String × Json)} {w : Json}
      (hs : s.key? = some key) (h : entries.lookup key = some w) : Leads s (.object entries) w
  /-- From an array to an item, counted from the front or from the end. -/
  | item {items : List Json} {n : Nat} {position : Int} {w : Json}
      {hfits : Number.fitsSigned position = true}
      (hn : position = n ∨ position = n - items.length) (h : items[n]? = some w) :
      Leads (.index position hfits) (.array items) w

end Step

/-- The text of the steps behind the first one. -/
def textBehind : List Step → String
  | [] => ""
  | s :: p => s.textBehind ++ textBehind p

/-- **The text of a path.** -/
def rendering : List Step → String
  | [] => "@"
  | s :: p => s.text ++ textBehind p

/-- **Where a path leads.** -/
inductive Leads : List Step → Json → Json → Prop
  /-- A path without steps leads to where it starts. -/
  | nil (v : Json) : Leads [] v v
  /-- A step, and the path from there on. -/
  | cons {s : Step} {p : List Step} {v w u : Json} (hs : s.Leads v w) (hp : Leads p w u) :
      Leads (s :: p) v u

/-! ### Following a path -/

/-- What a step yields on any value. -/
def Step.apply : Step → Json → Json
  | quoted key | bare key _ => Expr.fieldOf key
  | index position _ => Expr.itemOf position

/-- What a path yields on any value. -/
def follow (p : List Step) (v : Json) : Json :=
  p.foldl (fun v s => s.apply v) v

theorem Step.Leads.apply_eq {s : Step} {v w : Json} (h : s.Leads v w) : s.apply v = w := by
  cases h with
  | @key _ key entries _ hs h =>
    have hfield : Expr.fieldOf key (.object entries) = w := by rw [Expr.fieldOf, h]; rfl
    cases s with
    | quoted | bare =>
      obtain rfl := Option.some.inj hs
      exact hfield
    | index => exact absurd hs (by simp [Step.key?])
  | @item items n position _ _ hn h =>
    have hlt : n < items.length := (List.getElem?_eq_some_iff.mp h).1
    have hplace : Positions.fromFront items.length position = n := by
      rw [Positions.fromFront]
      split <;> omega
    have hitem : Positions.item? items position = some w := by
      rw [Positions.item?, hplace]
      exact (if_pos (Int.natCast_nonneg n)).trans h
    rw [Step.apply, Expr.itemOf, hitem]
    rfl

theorem Leads.follow_eq {p : List Step} {v w : Json} (h : Leads p v w) : follow p v = w := by
  induction h with
  | nil => rfl
  | cons hs _ ih =>
    rw [follow, List.foldl_cons, hs.apply_eq]
    exact ih

theorem follow_append (p q : List Step) (v : Json) :
    follow (p ++ q) v = follow q (follow p v) :=
  List.foldl_append

/-! ### The lexemes of a path -/

/-- The lexemes of a step. -/
def Step.lexemes : Step → List Lexeme
  | quoted key => [.quoted key]
  | bare key _ => [.name key]
  | index position _ => [.symbol .leftBracket, .number position, .symbol .rightBracket]

/-- The lexemes of a step behind others. -/
def Step.lexemesBehind (s : Step) : List Lexeme :=
  match s with
  | quoted _ | bare .. => .symbol .dot :: s.lexemes
  | index .. => s.lexemes

/-- The lexemes of the steps behind the first one. -/
def lexemesBehind (p : List Step) : List Lexeme :=
  p.flatMap Step.lexemesBehind

theorem splits_quoted (key : String) : Splits (Json.quoted key) [.quoted key] := by
  refine .of_lexeme? (Scan.quotedName_escape key []) ?_
  rw [List.drop_of_length_le (by simp)]
  exact .nil

theorem splits_bare {key : String} (h : isName key = true) : Splits key.toList [.name key] := by
  unfold isName at h
  split at h
  · exact absurd h Bool.false_ne_true
  · next c rest hkey =>
    obtain ⟨hstart, hparts⟩ := (Bool.and_eq_true _ _).mp h
    have htake : rest.takeWhile isNamePart = rest :=
      List.takeWhile_eq_self_iff.mpr (List.all_eq_true.mp hparts)
    have hname : String.ofList (c :: rest) = key := by rw [← hkey, String.ofList_toList]
    have hsingle := Scan.single?_eq_none_of_isNamePart (Scan.isNamePart_of_isNameStart hstart)
    have hlexeme : Scan.lexeme? c rest = .ok (.name key, rest.length + 1) := by
      unfold Scan.lexeme?
      rw [hsingle, htake]
      simp only [if_pos hstart, hname, List.length_cons]
    rw [hkey]
    refine .of_lexeme? hlexeme ?_
    rw [Nat.add_sub_cancel, List.drop_length]
    exact .nil

/-- A bracket in front of a number. -/
theorem splits_index {position : Int} (h : Number.fitsSigned position = true) :
    Splits ("[" ++ toString position ++ "]").toList
      [.symbol .leftBracket, .number position, .symbol .rightBracket] := by
  have hnumber : Splits ((toString position).toList ++ [']'])
      [.number position, .symbol .rightBracket] :=
    Scan.splits_toString_int h (by rintro c ⟨⟩; rfl) (.lexeme rfl rfl .nil)
  have hbracket : Scan.lexeme? '[' ((toString position).toList ++ [']']) =
      .ok (.symbol .leftBracket, 1) := by
    have hcases : ∀ cs, Scan.lexeme? '[' cs = if cs.head? = some ']' then
        .ok (.symbol .flatten, 2) else .ok (Scan.longer '?' .filter .leftBracket cs) := fun _ => rfl
    have hflatten : ((toString position).toList ++ [']']).head? ≠ some ']' := fun hc =>
      absurd (Scan.head?_toString_int hc) (by decide)
    have hfilter : ((toString position).toList ++ [']']).head? ≠ some '?' := fun hc =>
      absurd (Scan.head?_toString_int hc) (by decide)
    rw [hcases, if_neg hflatten, Scan.longer, if_neg hfilter]
  rw [String.toList_append, String.toList_append]
  exact .of_lexeme? hbracket hnumber

theorem splits_text (s : Step) : Splits s.text.toList s.lexemes := by
  cases s with
  | quoted key =>
    rw [Step.text, String.toList_ofList]
    exact splits_quoted key
  | bare key h => exact splits_bare h
  | index position h => exact splits_index h

theorem splits_step_textBehind (s : Step) : Splits s.textBehind.toList s.lexemesBehind := by
  have hdot : ∀ {t : String} {ls : List Lexeme}, Splits t.toList ls →
      Splits ("." ++ t).toList (.symbol .dot :: ls) := by
    intro t ls ht
    rw [String.toList_append]
    exact .lexeme rfl rfl ht
  cases s with
  | quoted key => exact hdot (splits_text (.quoted key))
  | bare key h => exact hdot (splits_text (.bare key h))
  | index position h => exact splits_text (.index position h)

/-- The steps behind the first one start with a dot or a bracket. -/
theorem breaks_textBehind (p : List Step) : Breaks (textBehind p).toList := by
  cases p with
  | nil => exact fun c hc => absurd hc (by simp [textBehind])
  | cons s p =>
    cases s with
    | quoted | bare =>
      simp only [textBehind, Step.textBehind, String.toList_append, List.append_assoc]
      exact Scan.breaks_cons rfl _
    | index =>
      simp only [textBehind, Step.textBehind, Step.text, String.toList_append, List.append_assoc]
      exact Scan.breaks_cons rfl _

theorem splits_textBehind (p : List Step) : Splits (textBehind p).toList (lexemesBehind p) := by
  induction p with
  | nil => exact .nil
  | cons s p ih =>
    rw [textBehind, String.toList_append, lexemesBehind, List.flatMap_cons]
    exact (splits_step_textBehind s).append (breaks_textBehind p) ih

/-! ### The expression of a path -/

/-- That an expression **extends** another one by some steps: it goes on from where that one
led. -/
def Extends (e left : Expr) (p : List Step) : Prop :=
  ∀ table v w, left.evaluate table v = .ok w → e.evaluate table v = .ok (follow p w)

theorem extends_nil (left : Expr) : Extends left left [] :=
  fun _ _ _ h => h

/-- Some steps after others. -/
theorem Extends.append {e mid left : Expr} {p q : List Step} (he : Extends e mid q)
    (hmid : Extends mid left p) : Extends e left (p ++ q) := by
  intro table v w h
  rw [follow_append]
  exact he table v _ (hmid table v w h)

theorem extends_indexed (left : Expr) {position : Int} (h : Number.fitsSigned position = true) :
    Extends (left.indexed (.index position)) left [.index position h] := by
  intro table v w hleft
  rw [Expr.evaluate_indexed, hleft]
  rfl

theorem extends_dotted (left : Expr) {right : Expr} {s : Step} {key : String}
    (hs : s.key? = some key) {p : List Step} (hright : Extends right (.field key) p) :
    Extends (left.dotted right) left (s :: p) := by
  intro table v w hleft
  have happly : s.apply w = Expr.fieldOf key w := by
    cases s with
    | quoted | bare => rw [← Option.some.inj hs]; rfl
    | index => exact absurd hs (by simp [Step.key?])
  rw [Expr.evaluate_dotted, hleft, follow, List.foldl_cons, happly]
  exact hright table w _ rfl

/-- Positions behind an operand, up to the next dot. -/
theorem exists_climb_indices {p : List Step} (hp : ∀ s ∈ p, s.key? = none) {L : Nat}
    (hL : p.length ≤ L) (left : Expr) {rest : List Lexeme}
    (hrest : (front rest).power ≤ Symbol.dot.power) :
    ∃ e, Derivable ⟨L, .climb Symbol.dot.power left e, lexemesBehind p ++ rest, rest⟩ ∧
      Extends e left p := by
  induction p generalizing L left with
  | nil => exact ⟨left, (Rule.stop hrest).derivable_nil, extends_nil left⟩
  | cons s p ih =>
    obtain ⟨hs, hmore⟩ := List.forall_mem_cons.mp hp
    cases s with
    | quoted | bare => exact absurd hs (by simp [Step.key?])
    | index position h =>
      cases L with
      | zero => exact absurd hL (Nat.not_succ_le_zero _)
      | succ L =>
        obtain ⟨e, hd, he⟩ :=
          ih hmore (Nat.le_of_succ_le_succ hL) (left.indexed (.index position))
        refine ⟨e, ?_, he.append (extends_indexed left h)⟩
        exact (Rule.climb (by decide)).derivable_pair
          (Rule.positionOf.derivable_singleton Rule.index.derivable_nil) hd

/-- What stands behind a step binds less than the parenthesis of a call. -/
theorem front_lexemesBehind_ne (p : List Step) {rest : List Lexeme}
    (hrest : front rest ≠ .symbol .leftParen) :
    front (lexemesBehind p ++ rest) ≠ .symbol .leftParen := by
  cases p with
  | nil => exact hrest
  | cons s p => cases s <;> exact nofun

section Key

variable {s : Step} {key : String} (hs : s.key? = some key)
include hs

theorem front_lexemes_of_key (ls : List Lexeme) :
    front (s.lexemes ++ ls) = .name ∨ front (s.lexemes ++ ls) = .quoted := by
  cases s with
  | quoted => exact .inr rfl
  | bare => exact .inl rfl
  | index => exact absurd hs (by simp [Step.key?])

theorem derivable_operand_of_key {L : Nat} {ls : List Lexeme}
    (hls : front ls ≠ .symbol .leftParen) :
    Derivable ⟨L, .operand (.field key), s.lexemes ++ ls, ls⟩ := by
  cases s with
  | quoted =>
    obtain rfl := Option.some.inj hs
    exact (Rule.quoted hls).derivable_nil
  | bare =>
    obtain rfl := Option.some.inj hs
    exact Rule.name.derivable_nil
  | index => exact absurd hs (by simp [Step.key?])

/-- A dot and a key behind an operand, with the positions behind the key. -/
theorem exists_step_dot {p : List Step} (hp : ∀ s ∈ p, s.key? = none) {L : Nat}
    (hL : p.length ≤ L) (left : Expr) {rest : List Lexeme}
    (hrest : (front rest).power ≤ Symbol.dot.power) :
    ∃ e, Derivable ⟨L + 1, .step .dot left e, s.lexemes ++ (lexemesBehind p ++ rest), rest⟩ ∧
      Extends e left (s :: p) := by
  obtain ⟨right, hclimb, hright⟩ := exists_climb_indices hp hL (.field key) hrest
  refine ⟨left.dotted right, ?_, extends_dotted left hs hright⟩
  have hfront := front_lexemes_of_key hs (lexemesBehind p ++ rest)
  have hstar : front (s.lexemes ++ (lexemesBehind p ++ rest)) ≠ .symbol .star := by
    rcases hfront with h | h <;> rw [h] <;> exact nofun
  have hcall : front (lexemesBehind p ++ rest) ≠ .symbol .leftParen := by
    refine front_lexemesBehind_ne p fun h => ?_
    rw [h] at hrest
    exact absurd hrest (by decide)
  exact (Rule.dot hstar).derivable_singleton <|
    (Rule.afterDot (hfront.imp_right .inl)).derivable_singleton <|
      Rule.expression.derivable_pair (derivable_operand_of_key hs hcall) hclimb

end Key

/-- The steps of a path from the first key on. -/
def fromKey (p : List Step) : List Step :=
  p.dropWhile fun s => s.key?.isNone

/-- The steps of a path before the first key. -/
def beforeKey (p : List Step) : List Step :=
  p.takeWhile fun s => s.key?.isNone

theorem beforeKey_append_fromKey (p : List Step) : beforeKey p ++ fromKey p = p :=
  List.takeWhile_append_dropWhile

theorem key?_of_mem_beforeKey {p : List Step} {s : Step} (h : s ∈ beforeKey p) :
    s.key? = none := by
  simpa using List.mem_takeWhile_imp h

theorem power_front_fromKey_le (p : List Step) :
    (front (lexemesBehind (fromKey p))).power ≤ Symbol.dot.power := by
  cases hp : fromKey p with
  | nil => exact Nat.zero_le _
  | cons s q =>
    have hhead := List.head?_dropWhile_not (fun s : Step => s.key?.isNone) p
    rw [← fromKey, hp] at hhead
    cases s with
    | quoted | bare => exact Nat.le_refl _
    | index => exact absurd hhead (by simp [Step.key?])

theorem lexemesBehind_append (p q : List Step) :
    lexemesBehind (p ++ q) = lexemesBehind p ++ lexemesBehind q :=
  List.flatMap_append

theorem lexemesBehind_cons_of_key {s : Step} {key : String} (hs : s.key? = some key)
    (p : List Step) :
    lexemesBehind (s :: p) = .symbol .dot :: (s.lexemes ++ lexemesBehind p) := by
  cases s with
  | quoted | bare => rfl
  | index => exact absurd hs (by simp [Step.key?])

/-- **The steps behind an operand** up to the end, if there are more levels than steps. -/
theorem exists_climb (p : List Step) {L : Nat} (hL : p.length < L) (left : Expr) :
    ∃ e, Derivable ⟨L, .climb 0 left e, lexemesBehind p, []⟩ ∧ Extends e left p := by
  match p, L, hL with
  | [], _, _ => exact ⟨left, (Rule.stop (Nat.le_refl 0)).derivable_nil, extends_nil left⟩
  | s :: p, L + 2, hL =>
    have hle : p.length ≤ L := Nat.le_of_lt_succ (Nat.lt_of_succ_lt_succ hL)
    cases hs : s.key? with
    | none =>
      obtain ⟨position, h, rfl⟩ : ∃ position h, s = .index position h := by
        cases s with
        | quoted | bare => exact absurd hs (by simp [Step.key?])
        | index position h => exact ⟨position, h, rfl⟩
      obtain ⟨e, hd, he⟩ := exists_climb p (Nat.lt_succ_of_le hle) (left.indexed (.index position))
      refine ⟨e, ?_, he.append (extends_indexed left h)⟩
      exact (Rule.climb (by decide)).derivable_pair
        (Rule.positionOf.derivable_singleton Rule.index.derivable_nil) hd
    | some key =>
      -- the positions up to the next key belong to the right side of the dot
      have hparts := beforeKey_append_fromKey p
      have hlength : (beforeKey p).length + (fromKey p).length = p.length := by
        rw [← List.length_append, hparts]
      obtain ⟨mid, hstep, hmid⟩ := exists_step_dot hs (fun _ => key?_of_mem_beforeKey (p := p))
        (L := L) (by omega) left (power_front_fromKey_le p)
      obtain ⟨e, hd, he⟩ := exists_climb (fromKey p) (L := L + 1) (by omega) mid
      have happend := he.append hmid
      rw [List.cons_append, hparts] at happend
      rw [← lexemesBehind_append, hparts] at hstep
      rw [lexemesBehind_cons_of_key hs]
      exact ⟨e, (Rule.climb (by decide)).derivable_pair hstep hd, happend⟩
termination_by p.length

/-- **The expression of a path**, if there are more levels than steps. -/
theorem exists_expression (p : List Step) {L : Nat} (hL : p.length < L) :
    ∃ ls e, Splits (rendering p).toList ls ∧ Derivable ⟨L, .expression 0 e, ls, []⟩ ∧
      ∀ table v, e.evaluate table v = .ok (follow p v) := by
  cases L with
  | zero => exact absurd hL (Nat.not_lt_zero _)
  | succ L =>
    cases p with
    | nil =>
      refine ⟨[.symbol .current], .current, .lexeme rfl rfl .nil, ?_, fun _ _ => rfl⟩
      exact Rule.expression.derivable_pair Rule.current.derivable_nil
        (Rule.stop (Nat.le_refl 0)).derivable_nil
    | cons s p =>
      have hp : p.length < L := Nat.lt_of_succ_lt_succ hL
      have hsplits : Splits (rendering (s :: p)).toList (s.lexemes ++ lexemesBehind p) := by
        rw [rendering, String.toList_append]
        exact (splits_text s).append (breaks_textBehind p) (splits_textBehind p)
      obtain ⟨left, hoperand, hleft⟩ : ∃ left,
          Derivable ⟨L, .operand left, s.lexemes ++ lexemesBehind p, lexemesBehind p⟩ ∧
            ∀ table v, left.evaluate table v = .ok (s.apply v) := by
        have hcall : front (lexemesBehind p) ≠ .symbol .leftParen := by
          rw [← List.append_nil (lexemesBehind p)]
          exact front_lexemesBehind_ne p nofun
        cases s with
        | quoted key =>
          exact ⟨.field key, derivable_operand_of_key rfl hcall, fun _ _ => rfl⟩
        | bare key => exact ⟨.field key, derivable_operand_of_key rfl hcall, fun _ _ => rfl⟩
        | index position =>
          exact ⟨_, Rule.position.derivable_singleton Rule.index.derivable_nil, fun _ _ => rfl⟩
      obtain ⟨e, hclimb, he⟩ := exists_climb p hp left
      refine ⟨_, e, hsplits, Rule.expression.derivable_pair hoperand hclimb, fun table v => ?_⟩
      exact he table v _ (hleft table v)

end Path

namespace Query

/-- **Every value has an address**: the text of a path that leads from a document to a value
compiles, and its query yields that value on the document. -/
theorem search_rendering {p : List Path.Step} (hp : p.length ≤ 100) {d v : Json}
    (h : Path.Leads p d v) :
    ∃ q, compile (Path.rendering p) = .ok q ∧ ∀ table, q.search table d = .ok v := by
  have hlevels : p.length < Grammar.maxNesting := Nat.lt_of_le_of_lt hp (by decide)
  obtain ⟨ls, e, hsplits, hd, heval⟩ := Path.exists_expression p hlevels
  refine ⟨⟨Path.rendering p, e⟩, compile_eq_ok_iff.mpr ⟨rfl, ls, hsplits, hd⟩, fun table => ?_⟩
  rw [search, heval, h.follow_eq]

/-- A key that has to be quoted, behind a position that counts from the end. -/
theorem search_rendering_mixed :
    ∃ (p : List Path.Step) (d : Json), p.length ≤ 100 ∧ Path.Leads p d (.bool true) ∧
      Path.rendering p = "a[-1].\"b \\\"c\"[0]" ∧
      ∃ q, compile "a[-1].\"b \\\"c\"[0]" = .ok q ∧
        ∀ table, q.search table d = .ok (.bool true) := by
  have hleads : Path.Leads [.bare "a" (by decide), .index (-1) (by decide), .quoted "b \"c",
      .index 0 (by decide)]
      (.object [("a", .array [.null, .object [("b \"c", .array [.bool true])]])]) (.bool true) :=
    have hlast : (-1 : Int) = (1 : Nat) - [Json.null, .null].length := by decide
    have hfirst : (0 : Int) = (0 : Nat) := rfl
    .cons (.key rfl rfl) (.cons (.item (.inr hlast) rfl)
      (.cons (.key rfl rfl) (.cons (.item (.inl hfirst) rfl) (.nil _))))
  have hrendering : Path.rendering [.bare "a" (by decide), .index (-1) (by decide),
      .quoted "b \"c", .index 0 (by decide)] = "a[-1].\"b \\\"c\"[0]" := by decide +kernel
  have hlength : [Path.Step.bare "a" (by decide), .index (-1) (by decide), .quoted "b \"c",
      .index 0 (by decide)].length ≤ 100 := by decide
  have hsearch := search_rendering hlength hleads
  rw [hrendering] at hsearch
  exact ⟨_, _, hlength, hleads, hrendering, hsearch⟩

end Query

end JsonQuery
