import JsonQuery.Envelope
import JsonQuery.Proofs.IntegerOrder
import JsonQuery.Proofs.Mapping
import JsonQuery.Proofs.ProjectionComposition
import JsonQuery.Proofs.Relaying

/-!
# Envelopes of records

Several envelopes unwrap an event that has **records**, each of which has a text for its body.
Their queries are of one form. Behind the projection of the records stands, behind a dot each,
what takes off one **layer** after the other (`JsonQuery.Envelope.Layer`): the document that a
field holds the text of, a field, or the first item of one. A query of this form compiles
whatever its layers are called (`JsonQuery.Envelope.compile_recordsQuery`), for the parentheses
of a call and the brackets of a position bind more tightly than the dot does, and it takes the
layers off every record alike (`JsonQuery.Envelope.extract_recordsQuery`).

The records come all or none (`JsonQuery.Envelope.extract_records`). One body that is no
document is enough for the extraction to fail, wherever its record stands and whatever is in
the others. If all of them can be read, what was asked for comes in the order of the records,
and only a record that does not have it is left out. What is a document and what is not is a
matter of `JsonQuery.Json.ofText?` alone; nothing here depends on how it reads.
-/

namespace JsonQuery

open Token (Lexeme)

/-! ### One after the other -/

section Traversal

variable {ε α β γ : Type}

/-- Going through some values succeeds if it does on every one. -/
theorem mapM_eq_ok_of_forall₂ {k : α → Except ε β} {as : List α} {bs : List β}
    (h : List.Forall₂ (fun a b => k a = .ok b) as bs) : as.mapM k = .ok bs := by
  induction h with
  | nil => rfl
  | cons hab _ ih =>
    rw [List.mapM_cons, hab, ih]
    rfl

/-- It fails if it does on one, though it may be another one on which it does. -/
theorem exists_mapM_eq_error {k : α → Except ε β} {as : List α} {a : α} (ha : a ∈ as) {e : ε}
    (h : k a = .error e) : ∃ e, as.mapM k = .error e := by
  induction as with
  | nil => cases ha
  | cons a' as ih =>
    rcases hfirst : k a' with e' | b
    · exact ⟨e', mapM_cons_eq_error_iff.mpr (Or.inl hfirst)⟩
    · obtain rfl | ha := List.mem_cons.mp ha
      · cases h.symm.trans hfirst
      · obtain ⟨e', he'⟩ := ih ha
        exact ⟨e', mapM_cons_eq_error_iff.mpr (Or.inr ⟨⟨b, hfirst⟩, he'⟩)⟩

theorem mapM_congr {k : α → Except ε γ} {k' : β → Except ε γ} {as : List α} {bs : List β}
    (h : List.Forall₂ (fun a b => k a = k' b) as bs) : as.mapM k = bs.mapM k' := by
  induction h with
  | nil => rfl
  | cons hab _ ih => rw [List.mapM_cons, List.mapM_cons, hab, ih]

theorem exists_forall₂ {r : α → β → Prop} {as : List α} (h : ∀ a ∈ as, ∃ b, r a b) :
    ∃ bs, List.Forall₂ r as bs := by
  induction as with
  | nil => exact ⟨[], .nil⟩
  | cons a as ih =>
    obtain ⟨⟨b, hb⟩, has⟩ := List.forall_mem_cons.mp h
    obtain ⟨bs, hbs⟩ := ih has
    exact ⟨b :: bs, .cons hb hbs⟩

end Traversal

namespace Envelope

open Grammar (Derivable Rule front)
open Scan (Splits Breaks breaks_cons)

/-! ### Layers -/

/-- A **layer** of a record, by how it is taken off. -/
inductive Layer where
  /-- The document in a field that holds its text. -/
  | opened (name : String)
  /-- A field. -/
  | member (name : String)
  /-- The first item of a field. -/
  | first (name : String)

namespace Layer

/-- The field that a layer is in. -/
def name : Layer → String
  | opened name | member name | first name => name

/-- What stands behind the dot where a layer is taken off. -/
def text : Layer → String
  | opened name => "powertools_json" ++ ("(" ++ (name ++ ")"))
  | member name => name
  | first name => name ++ "[0]"

/-- The lexemes of that. -/
def lexemes : Layer → List Lexeme
  | opened name => [.name "powertools_json", .symbol .leftParen, .name name, .symbol .rightParen]
  | member name => [.name name]
  | first name => [.name name, .symbol .leftBracket, .number 0, .symbol .rightBracket]

/-- The expression of a layer. -/
def expr : Layer → Expr
  | opened name => .call "powertools_json" [.field name]
  | member name => .field name
  | first name => (Expr.field name).indexed (.index 0)

end Layer

/-- What takes off some layers, each behind a dot. -/
def textBehind (ls : List Layer) : String :=
  String.join (ls.map fun l => "." ++ l.text)

/-- The lexemes of that. -/
def lexemesBehind (ls : List Layer) : List Lexeme :=
  ls.flatMap fun l => .symbol .dot :: l.lexemes

/-- An expression with some layers to be taken off what it yields. -/
def exprBehind (left : Expr) (ls : List Layer) : Expr :=
  ls.foldl (fun e l => e.dotted l.expr) left

/-- A query that takes the same layers off every record. -/
def recordsQuery (ls : List Layer) : String :=
  "Records[*]" ++ textBehind ls

/-! ### How the queries are read -/

theorem Layer.splits {l : Layer} (h : Path.isName l.name = true) {cs : List Char}
    {ms : List Lexeme} (hbreaks : Breaks cs) (hcs : Splits cs ms) :
    Splits (l.text.toList ++ cs) (l.lexemes ++ ms) := by
  have hname := Path.splits_bare h
  cases l with
  | opened name =>
    have hcallee : Path.isName "powertools_json" = true := by decide
    have hargument : Splits ("(".toList ++ (name.toList ++ (")".toList ++ cs)))
        (.symbol .leftParen :: .name name :: .symbol .rightParen :: ms) :=
      .lexeme rfl rfl <| hname.append (breaks_cons rfl _) (.lexeme rfl rfl hcs)
    rw [text, String.toList_append, String.toList_append, String.toList_append,
      List.append_assoc, List.append_assoc, List.append_assoc]
    exact (Path.splits_bare hcallee).append (breaks_cons rfl _) hargument
  | member name => exact hname.append hbreaks hcs
  | first name =>
    have hindex : Splits ("[" ++ toString (0 : Int) ++ "]").toList
        [.symbol .leftBracket, .number 0, .symbol .rightBracket] := Path.splits_index (by decide)
    have htext : "[" ++ toString (0 : Int) ++ "]" = "[0]" := by decide
    rw [htext] at hindex
    rw [text, String.toList_append, List.append_assoc]
    exact hname.append (breaks_cons rfl _) (hindex.append hbreaks hcs)

theorem breaks_textBehind (ls : List Layer) : Breaks (textBehind ls).toList := by
  cases ls with
  | nil => exact fun c hc => absurd hc (by simp [textBehind])
  | cons l ls =>
    rw [textBehind, List.map_cons, String.join_cons, String.append_assoc, String.toList_append]
    exact breaks_cons rfl _

theorem splits_textBehind {ls : List Layer} (h : ∀ l ∈ ls, Path.isName l.name = true) :
    Splits (textBehind ls).toList (lexemesBehind ls) := by
  induction ls with
  | nil => exact .nil
  | cons l ls ih =>
    obtain ⟨hl, hls⟩ := List.forall_mem_cons.mp h
    have htext : textBehind (l :: ls) = "." ++ (l.text ++ textBehind ls) := by
      rw [textBehind, List.map_cons, String.join_cons, String.append_assoc]
      rfl
    rw [htext, String.toList_append, String.toList_append]
    exact .lexeme rfl rfl (Layer.splits hl (breaks_textBehind ls) (ih hls))

/-- A layer stands where an expression does, and whatever may follow it follows it. -/
theorem Layer.derivable (l : Layer) {L p : Nat} (hp : p ≤ Symbol.dot.power) {e : Expr}
    {ls rest : List Lexeme} (h : Derivable ⟨L + 1, .climb p l.expr e, ls, rest⟩) :
    Derivable ⟨L + 3, .expression p e, l.lexemes ++ ls, rest⟩ := by
  cases l with
  | opened name =>
    refine Rule.expression.derivable_pair Rule.name.derivable_nil ?_
    refine (Rule.climb (Nat.lt_of_le_of_lt hp (by decide))).derivable_pair ?_ h
    refine Rule.call.derivable_singleton (Rule.lastArgument.derivable_singleton ?_)
    exact Rule.expression.derivable_pair Rule.name.derivable_nil
      (Rule.stop (Nat.zero_le _)).derivable_nil
  | member name =>
    exact Rule.expression.derivable_pair Rule.name.derivable_nil (h.mono (Nat.le_succ _))
  | first name =>
    refine Rule.expression.derivable_pair Rule.name.derivable_nil ?_
    refine (Rule.climb (Nat.lt_of_le_of_lt hp (by decide))).derivable_pair ?_ h
    exact Rule.positionOf.derivable_singleton Rule.index.derivable_nil

/-- Layers behind dots go on with what is on their left, one by one. -/
theorem derivable_climb_layers {p : Nat} (hp : p < Symbol.dot.power) (ls : List Layer)
    (left : Expr) :
    Derivable ⟨ls.length + 3, .climb p left (exprBehind left ls), lexemesBehind ls, []⟩ := by
  induction ls generalizing left with
  | nil => exact (Rule.stop (Nat.zero_le p)).derivable_nil
  | cons l ls ih =>
    have hfront : (front (lexemesBehind ls)).power ≤ Symbol.dot.power := by
      cases ls with
      | nil => exact Nat.zero_le _
      | cons => exact Nat.le_refl _
    have hstep : Derivable ⟨ls.length + 3, .step .dot left (left.dotted l.expr),
        l.lexemes ++ lexemesBehind ls, lexemesBehind ls⟩ := by
      refine (Rule.dot ?_).derivable_singleton ((Rule.afterDot ?_).derivable_singleton ?_)
      · cases l <;> exact nofun
      · cases l <;> exact Or.inl rfl
      · exact l.derivable (Nat.le_refl _) (Rule.stop hfront).derivable_nil
    exact (Rule.climb hp).derivable_pair hstep (ih _)

/-- **A query for records** applies its layers to every record. -/
theorem compile_recordsQuery {l : Layer} {ls : List Layer}
    (h : ∀ m ∈ l :: ls, Path.isName m.name = true) (hlength : ls.length ≤ 100) :
    Query.compile (recordsQuery (l :: ls)) =
      .ok ⟨recordsQuery (l :: ls), .project (.field "Records") (exprBehind l.expr ls)⟩ := by
  refine Query.compile_eq_ok_iff.mpr ⟨rfl, .name "Records" :: .symbol .leftBracket ::
    .symbol .star :: .symbol .rightBracket :: lexemesBehind (l :: ls), ?_, ?_⟩
  · have hname : Path.isName "Records" = true := by decide
    have htext : "Records[*]" = "Records" ++ "[*]" := by decide
    rw [recordsQuery, htext, String.toList_append, String.toList_append, List.append_assoc]
    exact (Path.splits_bare hname).append (breaks_cons rfl _) <| .lexeme rfl rfl <|
      .lexeme rfl rfl <| .lexeme rfl rfl (splits_textBehind h)
  · have hright : Derivable ⟨ls.length + 5, .expression Symbol.star.power (exprBehind l.expr ls),
        l.lexemes ++ lexemesBehind ls, []⟩ :=
      l.derivable (by decide) (derivable_climb_layers (by decide) ls l.expr)
    have hprojected : Derivable ⟨ls.length + 5, .projected .items (exprBehind l.expr ls),
        lexemesBehind (l :: ls), []⟩ := by
      refine Rule.projectedDot.derivable_singleton ((Rule.afterDot ?_).derivable_singleton hright)
      cases l <;> exact Or.inl rfl
    refine Derivable.mono ?_ (show ls.length + 7 ≤ Grammar.maxNesting by
      rw [Grammar.maxNesting]; omega)
    refine Rule.expression.derivable_pair Rule.name.derivable_nil ?_
    exact (Rule.climb (by decide)).derivable_pair
      (Rule.everyItemOf.derivable_singleton hprojected) (Rule.stop (Nat.le_refl 0)).derivable_nil

/-! ### What the layers hold -/

open JsonQuery.Expr (fieldOf itemOf dropNulls)

/-- The document that a value is the text of. -/
def unpack : Json → Except Fault Json
  | .string text =>
    match Json.ofText? text with
    | some v => .ok v
    | none => .error (.call "powertools_json" (.custom "invalid JSON"))
  | v => .error (.call "powertools_json" (.type v ["string"] v.typeName))

/-- What a value holds in a layer. -/
def Layer.peel : Layer → Json → Except Fault Json
  | opened name, v => unpack (fieldOf name v)
  | member name, v => .ok (fieldOf name v)
  | first name, v => .ok (itemOf 0 (fieldOf name v))

/-- **A call that opens a document** complains of a value that is no string by its type, and of
a string that is no document in words. -/
theorem callIn_openJson (v : Json) :
    Expr.callIn .withPayload "powertools_json" [.value v] = unpack v := by
  have htable : Registry.withPayload.get? "powertools_json" = some Library.openJson := rfl
  rw [Expr.callIn, htable]
  cases v with
  | string text =>
    have hbody : Library.openJson.invoke [.value (.string text)] =
        match Json.ofText? text with
        | some w => .ok w
        | none => .error (Library.complain "invalid JSON") := rfl
    rw [unpack]
    dsimp only
    rw [hbody]
    rcases Json.ofText? text with _ | w <;> rfl
  | array items => rcases items with _ | ⟨item, items⟩ <;> rfl
  | _ => rfl

theorem Layer.evaluate_expr (l : Layer) (v : Json) :
    l.expr.evaluate .withPayload v = l.peel v := by
  cases l with
  | opened name => exact callIn_openJson (fieldOf name v)
  | member name => rfl
  | first name =>
    rw [expr, Expr.evaluate_indexed]
    rfl

/-- Layers are taken off one after the other. -/
theorem evaluate_exprBehind (ls : List Layer) (left : Expr) (v : Json) :
    (exprBehind left ls).evaluate .withPayload v =
      left.evaluate .withPayload v >>= fun w => ls.foldlM (fun w l => l.peel w) w := by
  induction ls generalizing left with
  | nil => exact (bind_pure _).symm
  | cons l ls ih =>
    have hl : l.expr.evaluate .withPayload = l.peel := funext l.evaluate_expr
    rw [exprBehind, List.foldl_cons, ← exprBehind, ih, Expr.evaluate_dotted, bind_assoc, hl]
    rfl

/-- **What a query for records takes out of an event.** -/
theorem extract_recordsQuery {l : Layer} {ls : List Layer}
    (h : ∀ m ∈ l :: ls, Path.isName m.name = true) (hlength : ls.length ≤ 100) {event : Json}
    {records : List Json} (hrecords : fieldOf "Records" event = .array records) :
    extract none (recordsQuery (l :: ls)) event =
      ((records.mapM fun record => (l :: ls).foldlM (fun w (m : Layer) => m.peel w) record).map
        fun results => Json.array (dropNulls results)).mapError
          fun f => .fault f (some (recordsQuery (l :: ls))) := by
  have hright : (exprBehind l.expr ls).evaluate .withPayload =
      fun record => (l :: ls).foldlM (fun w (m : Layer) => m.peel w) record := by
    funext record
    rw [evaluate_exprBehind, l.evaluate_expr, List.foldlM_cons]
  have hleft : (Expr.field "Records").evaluate .withPayload event = .ok (.array records) :=
    congrArg Except.ok hrecords
  have hrun : extract none (recordsQuery (l :: ls)) event =
      Query.search .withPayload ⟨recordsQuery (l :: ls),
        .project (.field "Records") (exprBehind l.expr ls)⟩ event := by
    rw [extract, Query.run, compile_recordsQuery h hlength]
    rfl
  rw [hrun, Query.search, Expr.evaluate_project_of_array hleft, hright]
  rcases records.mapM fun record => (l :: ls).foldlM (fun w (m : Layer) => m.peel w) record with
    f | results <;> rfl

/-! ### Records one by one -/

/-- That an event **delivers** some texts: it has records, and each of them has the text at its
place for a body. -/
def Delivers (event : Json) (texts : List String) : Prop :=
  ∃ entries records, event = .object entries ∧
    entries.lookup "Records" = some (.array records) ∧
    List.Forall₂ (fun record text => ∃ fields, record = .object fields ∧
      fields.lookup "body" = some (.string text)) records texts

/-- What a query for records makes of an event depends on the texts that it delivers. -/
theorem extract_of_delivers {event : Json} {texts : List String} (h : Delivers event texts)
    {ls : List Layer} (hnames : ∀ m ∈ ls, Path.isName m.name = true) (hlength : ls.length ≤ 100) :
    extract none (recordsQuery (.opened "body" :: ls)) event =
      ((texts.mapM fun text => unpack (.string text) >>= fun p =>
        ls.foldlM (fun w (m : Layer) => m.peel w) p).map
          fun results => Json.array (dropNulls results)).mapError
            fun f => .fault f (some (recordsQuery (.opened "body" :: ls))) := by
  obtain ⟨entries, records, rfl, hlookup, hbodies⟩ := h
  have hrecords : fieldOf "Records" (.object entries) = .array records := by
    rw [fieldOf, hlookup]
    rfl
  have hnames' : ∀ m ∈ Layer.opened "body" :: ls, Path.isName m.name = true :=
    List.forall_mem_cons.mpr ⟨by decide, hnames⟩
  rw [extract_recordsQuery hnames' hlength hrecords]
  congr 2
  refine mapM_congr (hbodies.imp ?_)
  rintro _ text ⟨fields, rfl, hbody⟩
  rw [List.foldlM_cons, Layer.peel, fieldOf, hbody]
  rfl

/-! ### Four envelopes -/

/-- The first of the records that a document has, if it has any. -/
def firstRecord (v : Json) : Json :=
  match fieldOf "Records" v with
  | .array (first :: _) => first
  | _ => .null

theorem peel_first (v : Json) : (Layer.first "Records").peel v = .ok (firstRecord v) := by
  rw [Layer.peel, firstRecord]
  cases fieldOf "Records" v with
  | array items => cases items <;> rfl
  | _ => rfl

/-- The envelopes of records that only **pick** something out of the document in a body. -/
inductive Picks : Envelope → (Json → Json) → Prop
  /-- The document itself. -/
  | whole : Picks .sqs id
  /-- The first of the records in it. -/
  | firstRecord : Picks .s3Sqs firstRecord
  /-- Its detail. -/
  | detail : Picks .s3EventBridgeSqs (fieldOf "detail")

/-- What is picked lies in layers below the body that can always be taken off. -/
theorem Picks.exists_layers {envelope : Envelope} {pick : Json → Json}
    (h : Picks envelope pick) : ∃ ls : List Layer,
      envelope.query = recordsQuery (.opened "body" :: ls) ∧
      (∀ m ∈ ls, Path.isName m.name = true) ∧ ls.length ≤ 100 ∧
      ∀ v, ls.foldlM (fun w (m : Layer) => m.peel w) v = .ok (pick v) := by
  cases h with
  | whole => exact ⟨[], by decide, nofun, by decide, fun v => rfl⟩
  | firstRecord =>
    refine ⟨[.first "Records"], by decide, by decide, by decide, fun v => ?_⟩
    rw [List.foldlM_cons, peel_first]
    rfl
  | detail => exact ⟨[.member "detail"], by decide, by decide, by decide, fun v => rfl⟩

/-- That a text **notifies** of a document: it is itself that of a document, whose message is the
text of the other one. -/
inductive Notifies (text : String) (v : Json) : Prop
  /-- The two documents, one inside the other. -/
  | intro {p : Json} {message : String} (houter : Json.ofText? text = some p)
      (hmessage : fieldOf "Message" p = .string message)
      (hinner : Json.ofText? message = some v)

/-- That a text is **no notice**: it is no document, or the document has no message that is a
string, or the message is no document. -/
inductive NoNotice (text : String) : Prop
  /-- It is no document. -/
  | outer (h : Json.ofText? text = none)
  /-- There is no message that is a string. -/
  | message {p : Json} (houter : Json.ofText? text = some p)
      (h : ∀ message, fieldOf "Message" p ≠ .string message)
  /-- The message is no document. -/
  | inner {p : Json} {message : String} (houter : Json.ofText? text = some p)
      (hmessage : fieldOf "Message" p = .string message) (h : Json.ofText? message = none)

theorem noNotice_or_exists_notifies (text : String) : NoNotice text ∨ ∃ v, Notifies text v := by
  cases houter : Json.ofText? text with
  | none => exact Or.inl (.outer houter)
  | some p =>
    cases hmessage : fieldOf "Message" p with
    | string message =>
      cases hinner : Json.ofText? message with
      | none => exact Or.inl (.inner houter hmessage hinner)
      | some v => exact Or.inr ⟨v, .intro houter hmessage hinner⟩
    | _ => exact Or.inl (.message houter fun message h => nomatch hmessage.symm.trans h)

theorem rightUnique_notifies : Relator.RightUnique Notifies := by
  rintro text v w ⟨houter, hmessage, hinner⟩ ⟨houter', hmessage', hinner'⟩
  obtain rfl := Option.some.inj (houter.symm.trans houter')
  obtain rfl := Json.string.inj (hmessage.symm.trans hmessage')
  exact Option.some.inj (hinner.symm.trans hinner')

theorem Notifies.not_noNotice {text : String} {v : Json} (h : Notifies text v) :
    ¬ NoNotice text := by
  obtain ⟨houter, hmessage, hinner⟩ := h
  rintro (h | ⟨houter', h⟩ | ⟨houter', hmessage', h⟩)
  · cases h.symm.trans houter
  · obtain rfl := Option.some.inj (houter.symm.trans houter')
    exact h _ hmessage
  · obtain rfl := Option.some.inj (houter.symm.trans houter')
    obtain rfl := Json.string.inj (hmessage.symm.trans hmessage')
    cases h.symm.trans hinner

theorem unpack_of_some {text : String} {v : Json} (h : Json.ofText? text = some v) :
    unpack (.string text) = .ok v := by
  rw [unpack, h]

theorem unpack_of_none {text : String} (h : Json.ofText? text = none) :
    unpack (.string text) = .error (.call "powertools_json" (.custom "invalid JSON")) := by
  rw [unpack, h]

/-- Whatever is no document is complained of. -/
theorem failsBy_unpack (v : Json) :
    FailsBy (fun f => ∃ complaint, f = .call "powertools_json" complaint) (unpack v) := by
  cases v with
  | string text =>
    cases h : Json.ofText? text with
    | none => exact unpack_of_none h ▸ failsBy_error ⟨_, rfl⟩
    | some w => exact unpack_of_some h ▸ failsBy_pure w
  | _ => exact failsBy_error ⟨_, rfl⟩

/-- A text that is no document is complained of as such, in words that may go on. -/
theorem failsBy_unpack_string (text : String) :
    FailsBy (fun f => ∃ words : String, "invalid JSON".toList <+: words.toList ∧
      f = .call "powertools_json" (.custom words)) (unpack (.string text)) := by
  cases h : Json.ofText? text with
  | none => exact unpack_of_none h ▸ failsBy_error ⟨_, List.prefix_rfl, rfl⟩
  | some w => exact unpack_of_some h ▸ failsBy_pure w

/-- The document that a text notifies of. -/
def notified (text : String) : Except Fault Json :=
  unpack (.string text) >>= fun p => unpack (fieldOf "Message" p)

theorem notified_of_some {text : String} {p : Json} (h : Json.ofText? text = some p) :
    notified text = unpack (fieldOf "Message" p) := by
  rw [notified, unpack_of_some h]
  rfl

theorem notified_of_notifies {text : String} {v : Json} (h : Notifies text v) :
    notified text = .ok v := by
  obtain ⟨houter, hmessage, hinner⟩ := h
  rw [notified_of_some houter, hmessage, unpack_of_some hinner]

theorem exists_notified_eq_error {text : String} (h : NoNotice text) :
    ∃ f, notified text = .error f := by
  cases h with
  | outer h => exact ⟨_, by rw [notified, unpack_of_none h]; rfl⟩
  | message houter h =>
    rename_i p
    refine ⟨.call "powertools_json" (.type (fieldOf "Message" p) ["string"]
      (fieldOf "Message" p).typeName), ?_⟩
    rw [notified_of_some houter]
    generalize fieldOf "Message" p = v at h ⊢
    cases v with
    | string message => exact absurd rfl (h message)
    | _ => rfl
  | inner houter hmessage h =>
    exact ⟨_, by rw [notified_of_some houter, hmessage, unpack_of_none h]⟩

/-! ### What is extracted -/

/-- That a query **extracts** from an event what it reads in each of some texts, in their order,
and then picks. -/
def Extracts (query : String) (event : Json) (texts : List String)
    (read : String → Except Fault Json) (pick : Json → Json) : Prop :=
  extract none query event =
    ((texts.mapM fun text => (read text).map pick).map
      fun results => Json.array (dropNulls results)).mapError fun f => .fault f (some query)

section Extracts

variable {query : String} {event : Json} {texts : List String}
  {read : String → Except Fault Json} {pick : Json → Json}

/-- **One text that cannot be read** spoils the extraction. -/
theorem Extracts.exists_eq_error (h : Extracts query event texts read pick) {P : Fault → Prop}
    (hread : ∀ text, FailsBy P (read text)) {text : String} (htext : text ∈ texts) {f : Fault}
    (hf : read text = .error f) :
    ∃ f, P f ∧ extract none query event = .error (.fault f (some query)) := by
  have hfails : FailsBy P (texts.mapM fun text => (read text).map pick) :=
    failsBy_mapM fun text _ => (hread text).bind fun p _ => failsBy_pure (pick p)
  obtain ⟨f, hf⟩ := exists_mapM_eq_error (k := fun text => (read text).map pick)
    htext (map_eq_error_iff.mpr hf)
  refine ⟨f, hfails f hf, ?_⟩
  rw [h, hf]
  rfl

/-- **Texts that can be read** are gone through in their order. -/
theorem Extracts.eq_ok (h : Extracts query event texts read pick) {vs : List Json}
    (hvs : List.Forall₂ (fun text v => read text = .ok v) texts vs) :
    extract none query event = .ok (.array (dropNulls (vs.map pick))) := by
  have hmap : (texts.mapM fun text => (read text).map pick) = .ok (vs.map pick) := by
    refine mapM_eq_ok_of_forall₂ (List.forall₂_map_right_iff.mpr (hvs.imp fun text v hv => ?_))
    rw [hv]
    rfl
  rw [h, hmap]
  rfl

theorem extracts_of_picks (h : Delivers event texts) {envelope : Envelope}
    (hpick : Picks envelope pick) :
    Extracts envelope.query event texts (fun text => unpack (.string text)) pick := by
  obtain ⟨ls, hquery, hnames, hlength, hls⟩ := hpick.exists_layers
  rw [Extracts, hquery, extract_of_delivers h hnames hlength, funext hls]
  rfl

theorem extracts_notified (h : Delivers event texts) :
    Extracts s3SnsSqs.query event texts notified firstRecord := by
  have hquery : s3SnsSqs.query =
      recordsQuery [.opened "body", .opened "Message", .first "Records"] := by decide
  have hlayers : (fun p => [Layer.opened "Message", .first "Records"].foldlM
      (fun w (m : Layer) => m.peel w) p) =
      fun p => (unpack (fieldOf "Message" p)).map firstRecord := by
    funext p
    rw [List.foldlM_cons, Layer.peel]
    rcases unpack (fieldOf "Message" p) with f | v
    · rfl
    · change (Layer.first "Records").peel v >>= pure = _
      rw [peel_first]
      rfl
  have hread : (fun text => unpack (.string text) >>= fun p =>
      (unpack (fieldOf "Message" p)).map firstRecord) =
      fun text => (notified text).map firstRecord := by
    funext text
    rw [notified]
    rcases unpack (.string text) with f | p <;> rfl
  rw [Extracts, hquery, extract_of_delivers h (by decide) (by decide), hlayers, hread]

end Extracts

/-- **Records are extracted all or none, in order.** -/
theorem extract_records {event : Json} {texts : List String} (h : Delivers event texts) :
    (∀ envelope pick, Picks envelope pick →
      ((∃ text ∈ texts, Json.ofText? text = none) →
        ∃ words : String, "invalid JSON".toList <+: words.toList ∧
          extract none envelope.query event =
            .error (.fault (.call "powertools_json" (.custom words)) (some envelope.query))) ∧
      ((∀ text ∈ texts, Json.ofText? text ≠ none) →
        ∃ ps, List.Forall₂ (fun text p => Json.ofText? text = some p) texts ps ∧
          extract none envelope.query event = .ok (.array (dropNulls (ps.map pick))))) ∧
    ((∃ text ∈ texts, NoNotice text) →
      ∃ complaint, extract none s3SnsSqs.query event =
        .error (.fault (.call "powertools_json" complaint) (some s3SnsSqs.query))) ∧
    ((∀ text ∈ texts, ¬ NoNotice text) →
      ∃ vs, List.Forall₂ Notifies texts vs ∧
        extract none s3SnsSqs.query event = .ok (.array (dropNulls (vs.map firstRecord)))) := by
  refine ⟨fun envelope pick hpick => ⟨?_, fun hall => ?_⟩, ?_, fun hall => ?_⟩
  · rintro ⟨text, htext, hnone⟩
    obtain ⟨_, ⟨words, hwords, rfl⟩, hf⟩ := (extracts_of_picks h hpick).exists_eq_error
      failsBy_unpack_string htext (unpack_of_none hnone)
    exact ⟨words, hwords, hf⟩
  · obtain ⟨ps, hps⟩ := exists_forall₂ (r := fun text p => Json.ofText? text = some p)
      fun text htext => Option.ne_none_iff_exists'.mp (hall text htext)
    exact ⟨ps, hps, (extracts_of_picks h hpick).eq_ok (hps.imp fun _ _ => unpack_of_some)⟩
  · rintro ⟨text, htext, hno⟩
    obtain ⟨f, hf⟩ := exists_notified_eq_error hno
    have hread : ∀ text, FailsBy (fun f => ∃ complaint, f = .call "powertools_json" complaint)
        (notified text) := fun text => (failsBy_unpack _).bind fun p _ => failsBy_unpack _
    obtain ⟨_, ⟨complaint, rfl⟩, herror⟩ :=
      (extracts_notified h).exists_eq_error hread htext hf
    exact ⟨complaint, herror⟩
  · obtain ⟨vs, hvs⟩ := exists_forall₂ (r := Notifies) fun text htext =>
      (noNotice_or_exists_notifies text).resolve_left (hall text htext)
    exact ⟨vs, hvs, (extracts_notified h).eq_ok (hvs.imp fun _ _ => notified_of_notifies)⟩

/-- An event that delivers some texts. -/
def eventOf (texts : List String) : Json :=
  .object [("Records", .array (texts.map fun text => .object [("body", .string text)]))]

theorem delivers_eventOf (texts : List String) : Delivers (eventOf texts) texts :=
  ⟨_, _, rfl, rfl, List.forall₂_map_left_iff.mpr
    (List.forall₂_same.mpr fun _ _ => ⟨_, rfl, rfl⟩)⟩

/-- A text among others that is no document, details of which one is missing, and a notice. -/
theorem extract_records_of_eventOf :
    (∃ words : String, "invalid JSON".toList <+: words.toList ∧
      extract none sqs.query (eventOf ["1", "x", "2"]) =
        .error (.fault (.call "powertools_json" (.custom words)) (some sqs.query))) ∧
    extract none s3EventBridgeSqs.query
        (eventOf ["\x7b\"detail\":2\x7d", "1", "\x7b\"detail\":[3]\x7d"]) =
      .ok (.array [.int 2, .array [.int 3]]) ∧
    extract none s3SnsSqs.query
        (eventOf ["\x7b\"Message\":\"\x7b\\\"Records\\\":[1,2]\x7d\"\x7d"]) =
      .ok (.array [.int 1]) := by
  refine ⟨?_, ?_, ?_⟩
  · exact ((extract_records (delivers_eventOf _)).1 _ _ .whole).1
      ⟨"x", by decide, by with_unfolding_all rfl⟩
  · have h₁ : Json.ofText? "\x7b\"detail\":2\x7d" = some (.object [("detail", .int 2)]) := by
      with_unfolding_all rfl
    have h₂ : Json.ofText? "1" = some (.int 1) := by with_unfolding_all rfl
    have h₃ : Json.ofText? "\x7b\"detail\":[3]\x7d" =
        some (.object [("detail", .array [.int 3])]) := by with_unfolding_all rfl
    have hunique : Relator.RightUnique fun text p => Json.ofText? text = some p :=
      fun _ _ _ h h' => Option.some.inj (h.symm.trans h')
    have hextracts := ((extract_records (delivers_eventOf
      ["\x7b\"detail\":2\x7d", "1", "\x7b\"detail\":[3]\x7d"])).1 _ _ .detail).2
    obtain ⟨ps, hps, hextract⟩ := hextracts <| List.forall_mem_cons.mpr ⟨h₁ ▸ nofun,
      List.forall_mem_cons.mpr ⟨h₂ ▸ nofun, List.forall_mem_singleton.mpr (h₃ ▸ nofun)⟩⟩
    obtain rfl := hunique.forall₂ hps (.cons h₁ (.cons h₂ (.cons h₃ .nil)))
    exact hextract
  · have hnotice : Notifies "\x7b\"Message\":\"\x7b\\\"Records\\\":[1,2]\x7d\"\x7d"
        (.object [("Records", .array [.int 1, .int 2])]) :=
      @Notifies.intro _ _ (.object [("Message", .string "\x7b\"Records\":[1,2]\x7d")]) _
        (by with_unfolding_all rfl) rfl (by with_unfolding_all rfl)
    obtain ⟨vs, hvs, hextract⟩ := (extract_records (delivers_eventOf _)).2.2 <|
      List.forall_mem_singleton.mpr hnotice.not_noNotice
    obtain rfl := rightUnique_notifies.forall₂ hvs (.cons hnotice .nil)
    exact hextract

end Envelope

end JsonQuery
