import JsonQuery.Proofs.NumberTexts

/-!
# Values told by their texts

The text of a value **tells** which value it is and where it ends, even if there is more behind
it, as long as that is nothing that a number could go on with (`JsonQuery.Json.Tells`). It does
so part by part: a string ends with its quotation mark, a number where no more of its characters
follow, and between brackets each item is followed by a comma or by the bracket.

All of this goes for the compact text and for the indented one. They differ in their **spacing**
alone, by what stands in front of a part and behind a colon (`JsonQuery.Json.Spacing`), so both
are instances of one way of writing (`JsonQuery.Json.Writes`), which is what the theorems are
about (`JsonQuery.Json.Writes.tells`).
-/

namespace JsonQuery.Json

/-! ### Parts of values -/

/-- The values directly inside a value. -/
def parts : Json → List Json
  | array items => items
  | object entries => entries.map Prod.snd
  | _ => []

theorem sizeOf_lt_of_mem_parts {v w : Json} (h : w ∈ v.parts) : sizeOf w < sizeOf v := by
  cases v with
  | array items =>
    have hlt : sizeOf w < sizeOf items := List.sizeOf_lt_of_mem h
    rw [array.sizeOf_spec]
    omega
  | object entries =>
    obtain ⟨⟨key, w⟩, hentry, rfl⟩ := List.mem_map.mp h
    have hlt := List.sizeOf_lt_of_mem hentry
    rw [Prod.mk.sizeOf_spec] at hlt
    rw [object.sizeOf_spec]
    dsimp only
    omega
  | _ => cases h

/-- **Induction on values** by way of their parts. -/
theorem parts_induction {P : Json → Prop} (h : ∀ v, (∀ w ∈ v.parts, P w) → P v) (v : Json) :
    P v :=
  h v fun w _ => parts_induction h w
termination_by sizeOf v
decreasing_by exact sizeOf_lt_of_mem_parts ‹_›

/-! ### Lists in a text -/

/-- Where the parts of a value stand: each on a line of its own, which begins with the blanks of
its level, or all on one line; and what is between a key and its value. -/
structure Spacing where
  /-- What stands in front of a part at a level. -/
  line : Nat → List Char
  /-- What stands behind the colon. -/
  gap : List Char
  /-- A line begins with blanks, if it is a line at all. -/
  blank : ∀ level, ∀ c ∈ line level, Text.isSpace c = true

/-- Some texts, each on a line of its own, a comma between two of them. -/
def listed (line : List Char) : List (List Char) → List Char
  | [] => []
  | [text] => line ++ text
  | text :: more :: rest => line ++ text ++ ',' :: listed line (more :: rest)

/-- Some texts between brackets. -/
def bracketed (σ : Spacing) (level : Nat) (opening closing : Char) (texts : List (List Char)) :
    List Char :=
  opening :: (listed (σ.line (level + 1)) texts ++
    ((if texts.isEmpty then [] else σ.line level) ++ [closing]))

/-- An entry, its value being written by itself. -/
def entryText (σ : Spacing) (write : Json → List Char) (entry : String × Json) : List Char :=
  quoted entry.1 ++ ':' :: (σ.gap ++ write entry.2)

/-- That values are **written** with some spacing. -/
structure Writes (σ : Spacing) (write : Nat → Json → List Char) : Prop where
  /-- What has no parts is written in one way only. -/
  scalar : ∀ level v, v.parts = [] → write level v = compact v
  /-- The items of an array stand between brackets. -/
  array : ∀ level items, write level (array items) =
    bracketed σ level '[' ']' (items.map (write (level + 1)))
  /-- The entries of an object stand between braces. -/
  object : ∀ level entries, write level (object entries) =
    bracketed σ level '{' '}' (entries.map (entryText σ (write (level + 1))))

/-- Everything on one line, without any blank. -/
def tight : Spacing :=
  ⟨fun _ => [], [], fun _ => nofun⟩

/-- A line for each part, two blanks to each level. -/
def spacious : Spacing where
  line := newline
  gap := [' ']
  blank _ _ hc := (List.mem_cons.mp hc).elim (· ▸ rfl) fun hc =>
    List.eq_of_mem_replicate hc ▸ rfl

theorem compactItems_eq (items : List Json) :
    compactItems items = listed [] (items.map compact) := by
  induction items with
  | nil => rfl
  | cons item rest ih =>
    cases rest with
    | nil => rfl
    | cons =>
      rw [compactItems, ih]
      · rfl
      · exact nofun

theorem compactEntries_eq (entries : List (String × Json)) :
    compactEntries entries = listed [] (entries.map (entryText tight compact)) := by
  induction entries with
  | nil => rfl
  | cons entry rest ih =>
    cases rest with
    | nil => rfl
    | cons =>
      rw [compactEntries, ih]
      · simp only [List.map_cons, listed, entryText, List.append_assoc, List.cons_append]
        rfl
      · exact nofun

/-- **Compact texts** are written on one line. -/
theorem writes_compact : Writes tight fun _ => compact where
  scalar _ _ _ := rfl
  array _ items := by
    rw [compact, compactItems_eq, bracketed]
    split <;> rfl
  object _ entries := by
    rw [compact, compactEntries_eq, bracketed]
    split <;> rfl

theorem indentedItems_eq (level : Nat) (items : List Json) :
    indentedItems level items = listed (newline level) (items.map (indentedAt level)) := by
  induction items with
  | nil => rfl
  | cons item rest ih =>
    cases rest with
    | nil => rfl
    | cons =>
      rw [indentedItems, ih]
      · rfl
      · exact nofun

theorem indentedEntries_eq (level : Nat) (entries : List (String × Json)) :
    indentedEntries level entries =
      listed (newline level) (entries.map (entryText spacious (indentedAt level))) := by
  induction entries with
  | nil => rfl
  | cons entry rest ih =>
    cases rest with
    | nil =>
      rw [indentedEntries, List.map_singleton, listed, entryText, List.append_assoc]
      rfl
    | cons =>
      rw [indentedEntries, ih]
      · simp only [List.map_cons, listed, entryText, List.append_assoc, List.cons_append]
        rfl
      · exact nofun

/-- **Indented texts** have a line for each part. -/
theorem writes_indentedAt : Writes spacious indentedAt where
  scalar level v h := by
    cases v with
    | array items =>
      cases h
      rfl
    | object entries =>
      cases List.map_eq_nil_iff.mp h
      rfl
    | _ => rfl
  array level items := by
    cases items with
    | nil => rfl
    | cons item rest =>
      rw [indentedAt, indentedItems_eq, List.append_assoc]
      · rfl
      · exact nofun
  object level entries := by
    cases entries with
    | nil => rfl
    | cons entry rest =>
      rw [indentedAt, indentedEntries_eq, List.append_assoc]
      · rfl
      · exact nofun

/-! ### Where a text ends -/

/-- That a text **tells** what it is the text of, and where it ends, from anything that it may
stand in front of. -/
def Tells {α : Type} (text : α → List Char) (a : α) : Prop :=
  ∀ b rest rest', Stops isNumeral rest → Stops isNumeral rest' →
    text a ++ rest = text b ++ rest' → a = b ∧ rest = rest'

theorem tells_numberText (n : Number) : Tells numberText n := by
  intro m rest rest' hrest hrest' h
  have htake {k : Number} {rest : List Char} (hrest : Stops isNumeral rest) :
      (numberText k ++ rest).takeWhile isNumeral = numberText k :=
    takeWhile_append_of_stops (isNumeral_of_mem_numberText k) hrest
  have htext : numberText n = numberText m := by
    rw [← htake hrest, h, htake hrest']
  rw [htext] at h
  exact ⟨numberText_injective htext, List.append_cancel_left h⟩

theorem tells_quoted (text : String) : Tells quoted text := by
  intro text' rest rest' _ _ h
  have hread (text : String) (rest : List Char) :
      Reader.stringBody? (quoted text ++ rest).tail = some (text.toList, rest) := by
    have happend : (quoted text ++ rest).tail = text.toList.flatMap escape ++ '"' :: rest := by
      rw [quoted, List.cons_append, List.tail_cons, List.append_assoc, List.singleton_append]
    rw [happend, Reader.stringBody?_escape]
  have hbody := hread text rest
  rw [h, hread] at hbody
  obtain ⟨htext, hrest⟩ := Prod.mk.inj (Option.some.inj hbody)
  exact ⟨(String.toList_injective htext).symm, hrest.symm⟩

/-! ### Lists -/

/-- A line in front of a bracket, or the bracket alone. -/
structure Closes (closing : Char) (line : List Char) : Prop where
  /-- The bracket is no comma. -/
  ne_comma : closing ≠ ','
  /-- Nor can a number go on with it. -/
  ne_numeral : isNumeral closing = false
  /-- The line is blank. -/
  blank : ∀ c ∈ line, Text.isSpace c = true

/-- What stands behind an item: nothing, or a comma and the other items. -/
def behind (line : List Char) : List (List Char) → List Char
  | [] => []
  | texts => ',' :: listed line texts

theorem listed_cons (line text : List Char) (texts : List (List Char)) :
    listed line (text :: texts) = line ++ (text ++ behind line texts) := by
  cases texts with
  | nil => rw [listed, behind, List.append_nil]
  | cons => rw [listed, behind, List.append_assoc]; exact nofun

section Lists

variable {α : Type} {text : α → List Char} {closing : Char} {line : List Char}

theorem isNumeral_of_isSpace {c : Char} (h : Text.isSpace c = true) : isNumeral c = false := by
  simp only [Text.isSpace, Bool.or_eq_true, beq_iff_eq] at h
  rcases h with ((rfl | rfl) | rfl) | rfl <;> rfl

variable (hcloses : Closes closing line)
include hcloses

theorem Closes.head (rest : List Char) {c : Char}
    (hc : (line ++ closing :: rest).head? = some c) : isNumeral c = false ∧ c ≠ ',' := by
  cases line with
  | nil =>
    obtain rfl : closing = c := Option.some.inj hc
    exact ⟨hcloses.ne_numeral, hcloses.ne_comma⟩
  | cons d ds =>
    obtain rfl : d = c := Option.some.inj hc
    have hblank := hcloses.blank d List.mem_cons_self
    refine ⟨isNumeral_of_isSpace hblank, ?_⟩
    rintro rfl
    cases hblank

theorem Closes.stops (texts : List (List Char)) (own rest : List Char) :
    Stops isNumeral (behind own texts ++ (line ++ closing :: rest)) := by
  cases texts with
  | nil => exact fun c hc => (hcloses.head rest hc).1
  | cons => exact stops_cons rfl _

/-- Items are told from each other, and the bracket behind them from a comma. -/
theorem tells_behind {own : List Char} {as : List α} (h : ∀ a ∈ as, Tells text a)
    {bs : List α} {rest rest' : List Char}
    (heq : behind own (as.map text) ++ (line ++ closing :: rest) =
      behind own (bs.map text) ++ (line ++ closing :: rest')) : as = bs ∧ rest = rest' := by
  have hcomma {b : α} {bs : List α} {rest rest' : List Char} :
      line ++ closing :: rest ≠ behind own ((b :: bs).map text) ++ (line ++ closing :: rest') :=
    fun heq => (hcloses.head rest (c := ',') (heq ▸ rfl)).2 rfl
  -- the induction is on the items of the one list; the other is as long, or a comma would stand
  -- where a bracket does
  induction as generalizing bs with
  | nil =>
    cases bs with
    | nil => exact ⟨rfl, (List.cons.inj (List.append_cancel_left heq)).2⟩
    | cons => exact absurd heq hcomma
  | cons a as ih =>
    obtain ⟨ha, has⟩ := List.forall_mem_cons.mp h
    cases bs with
    | nil => exact absurd heq.symm hcomma
    | cons b bs =>
      simp only [List.map_cons, behind, List.cons_append, listed_cons, List.append_assoc] at heq
      obtain ⟨rfl, hbehind⟩ := ha b _ _ (hcloses.stops _ _ _) (hcloses.stops _ _ _)
        (List.append_cancel_left (List.cons.inj heq).2)
      obtain ⟨rfl, hrest⟩ := ih has hbehind
      exact ⟨rfl, hrest⟩

end Lists

theorem bracketed_append (σ : Spacing) (level : Nat) (opening closing : Char)
    (texts : List (List Char)) (rest : List Char) :
    bracketed σ level opening closing texts ++ rest =
      opening :: (listed (σ.line (level + 1)) texts ++
        ((if texts.isEmpty then [] else σ.line level) ++ closing :: rest)) := by
  rw [bracketed, List.cons_append, List.append_assoc, List.append_assoc, List.singleton_append]

/-- **A list between brackets** is told by its text if its items are, and if none of them looks
like the closing bracket. -/
theorem tells_bracketed {α : Type} {text : α → List Char} (σ : Spacing) (level : Nat)
    {opening closing : Char} (hcloses : Closes closing (σ.line level))
    (hspace : Text.isSpace closing = false)
    (hhead : ∀ a, ∃ c cs, text a = c :: cs ∧ c ≠ closing) {as : List α}
    (h : ∀ a ∈ as, Tells text a) :
    Tells (fun as => bracketed σ level opening closing (as.map text)) as := by
  intro bs rest rest' _ _ heq
  -- what stands behind the opening bracket of a list with an item does not close it
  have hopen {b : α} {bs : List α} {rest rest' : List Char} :
      closing :: rest ≠ listed (σ.line (level + 1)) ((b :: bs).map text) ++ rest' := by
    intro heq
    obtain ⟨c, cs, hc, hne⟩ := hhead b
    rw [List.map_cons, listed_cons, hc] at heq
    cases hline : σ.line (level + 1) with
    | nil =>
      rw [hline] at heq
      exact hne (List.cons.inj heq).1.symm
    | cons d ds =>
      rw [hline] at heq
      have hblank := σ.blank (level + 1) d (hline ▸ List.mem_cons_self)
      rw [← (List.cons.inj heq).1, hspace] at hblank
      cases hblank
  simp only [bracketed_append] at heq
  have hinside := (List.cons.inj heq).2
  cases as with
  | nil =>
    cases bs with
    | nil => exact ⟨rfl, (List.cons.inj hinside).2⟩
    | cons b bs => exact absurd hinside hopen
  | cons a as =>
    cases bs with
    | nil => exact absurd hinside.symm hopen
    | cons b bs =>
      obtain ⟨ha, has⟩ := List.forall_mem_cons.mp h
      simp only [List.map_cons, listed_cons, List.append_assoc, List.isEmpty_cons,
        Bool.false_eq_true, if_false] at hinside
      obtain ⟨rfl, hbehind⟩ := ha b _ _ (hcloses.stops _ _ _) (hcloses.stops _ _ _)
        (List.append_cancel_left hinside)
      obtain ⟨rfl, hrest⟩ := tells_behind hcloses has hbehind
      exact ⟨rfl, hrest⟩

/-! ### Values -/

theorem tells_bool (b b' : Bool) (rest rest' : List Char)
    (heq : compact (bool b) ++ rest = compact (bool b') ++ rest') :
    bool b = bool b' ∧ rest = rest' := by
  cases b <;> cases b'
  · exact ⟨rfl, List.append_cancel_left heq⟩
  · exact absurd (List.cons.inj heq).1 (by decide)
  · exact absurd (List.cons.inj heq).1 (by decide)
  · exact ⟨rfl, List.append_cancel_left heq⟩

theorem tells_entryText {σ : Spacing} {write : Json → List Char} {entry : String × Json}
    (h : Tells write entry.2) : Tells (entryText σ write) entry := by
  intro entry' rest rest' hrest hrest' heq
  simp only [entryText, List.append_assoc, List.cons_append] at heq
  obtain ⟨hkey, hcolon⟩ := tells_quoted entry.1 entry'.1 _ _ (stops_cons rfl _)
    (stops_cons rfl _) heq
  obtain ⟨hvalue, hbehind⟩ := h entry'.2 rest rest' hrest hrest'
    (List.append_cancel_left (List.cons.inj hcolon).2)
  exact ⟨Prod.ext hkey hvalue, hbehind⟩

/-- The type of a value whose text begins with a given character. -/
def typeOfHead (c : Char) : String :=
  if isNumeral c then "number"
  else if c = 'n' then "null"
  else if c = 't' ∨ c = 'f' then "boolean"
  else if c = '"' then "string"
  else if c = '[' then "array"
  else if c = '{' then "object"
  else ""

theorem typeName_ne_empty (v : Json) : v.typeName ≠ "" := by
  cases v <;> simp [typeName]

section Values

variable {σ : Spacing} {write : Nat → Json → List Char} (h : Writes σ write)
include h

theorem Writes.head (level : Nat) (v : Json) :
    ∃ c cs, write level v = c :: cs ∧ typeOfHead c = v.typeName := by
  cases v with
  | null => exact ⟨_, _, h.scalar level _ rfl, rfl⟩
  | bool b => cases b <;> exact ⟨_, _, h.scalar level _ rfl, rfl⟩
  | number n =>
    obtain ⟨c, cs, hc⟩ := List.exists_cons_of_ne_nil (numberText_ne_nil n)
    exact ⟨c, cs, (h.scalar level _ rfl).trans hc,
      if_pos (isNumeral_of_mem_numberText n c (hc ▸ List.mem_cons_self))⟩
  | string text => exact ⟨_, _, h.scalar level _ rfl, rfl⟩
  | array items => exact ⟨_, _, h.array level items, rfl⟩
  | object entries => exact ⟨_, _, h.object level entries, rfl⟩

/-- Two texts that begin alike are of values of one type. -/
theorem Writes.typeName_eq {level : Nat} {v u : Json} {rest rest' : List Char}
    (heq : write level v ++ rest = write level u ++ rest') : v.typeName = u.typeName := by
  obtain ⟨c, cs, hc, hv⟩ := h.head level v
  obtain ⟨d, ds, hd, hu⟩ := h.head level u
  rw [hc, hd] at heq
  rw [← hv, ← hu, (List.cons.inj heq).1]

theorem Writes.head_ne {closing : Char} (hclosing : typeOfHead closing = "") (level : Nat)
    (v : Json) : ∃ c cs, write level v = c :: cs ∧ c ≠ closing := by
  obtain ⟨c, cs, hc, htype⟩ := h.head level v
  refine ⟨c, cs, hc, ?_⟩
  rintro rfl
  exact typeName_ne_empty v (htype.symm.trans hclosing)

theorem Writes.tells (v : Json) : ∀ level, Tells (write level) v := by
  induction v using parts_induction with
  | h v ih =>
    intro level u rest rest' hrest hrest' heq
    -- the first character says that both values are of one type
    have htype := h.typeName_eq heq
    cases v with
    | null =>
      cases u with
      | null => exact ⟨rfl, List.append_cancel_left heq⟩
      | _ => simp [typeName] at htype
    | bool b =>
      cases u with
      | bool b' =>
        rw [h.scalar level _ rfl, h.scalar level _ rfl] at heq
        exact tells_bool b b' rest rest' heq
      | _ => simp [typeName] at htype
    | number n =>
      cases u with
      | number m =>
        rw [h.scalar level _ rfl, h.scalar level _ rfl] at heq
        obtain ⟨rfl, hbehind⟩ := tells_numberText n m rest rest' hrest hrest' heq
        exact ⟨rfl, hbehind⟩
      | _ => simp [typeName] at htype
    | string text =>
      cases u with
      | string text' =>
        rw [h.scalar level _ rfl, h.scalar level _ rfl] at heq
        obtain ⟨rfl, hbehind⟩ := tells_quoted text text' rest rest' hrest hrest' heq
        exact ⟨rfl, hbehind⟩
      | _ => simp [typeName] at htype
    | array items =>
      cases u with
      | array items' =>
        rw [h.array, h.array] at heq
        have hcloses : Closes ']' (σ.line level) := ⟨by decide, rfl, σ.blank level⟩
        obtain ⟨rfl, hbehind⟩ := tells_bracketed σ level hcloses rfl (h.head_ne rfl (level + 1))
          (fun item hitem => ih item hitem (level + 1)) items' rest rest' hrest hrest' heq
        exact ⟨rfl, hbehind⟩
      | _ => simp [typeName] at htype
    | object entries =>
      cases u with
      | object entries' =>
        rw [h.object, h.object] at heq
        have hcloses : Closes '}' (σ.line level) := ⟨by decide, rfl, σ.blank level⟩
        have hentries : ∀ entry ∈ entries, Tells (entryText σ (write (level + 1))) entry :=
          fun entry hentry =>
            tells_entryText (ih entry.2 (List.mem_map_of_mem hentry) (level + 1))
        obtain ⟨rfl, hbehind⟩ := tells_bracketed σ level hcloses rfl
          (fun entry => ⟨_, _, rfl, by decide⟩) hentries entries' rest rest' hrest hrest' heq
        exact ⟨rfl, hbehind⟩
      | _ => simp [typeName] at htype

/-- **A value is told by its text**, if it is all of a text. -/
theorem Writes.injective (level : Nat) : Function.Injective (write level) := by
  intro v u heq
  exact (h.tells v level u [] [] nofun nofun (congrArg (· ++ []) heq)).1

end Values

/-- **Equal compact texts are of equal values.** -/
theorem text_injective : Function.Injective text :=
  fun _ _ h => writes_compact.injective 0 (String.ofList_injective h)

/-- **Equal indented texts are of equal values.** -/
theorem indentedText_injective : Function.Injective indentedText :=
  fun _ _ h => writes_indentedAt.injective 0 (String.ofList_injective h)

end JsonQuery.Json
