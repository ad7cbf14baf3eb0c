import JsonQuery.Proofs.Compilation
import JsonQuery.Query.SharedCache

/-!
# A cache cannot be told from compiling anew

Whatever several clients do with a cache, in whatever order, it is **faithful**
(`JsonQuery.Cache.Faithful`): every query in it is what compiling its text yields, and there
is one for each text at most. This is the whole invariant. That a query may be compiled by
two clients at a time does no harm, as both get the same; that it may be kept after a purge
or dropped as soon as it was kept does no harm, for the invariant says nothing about which
queries are there.

Which ones are there is only known as long as none had to be dropped. A cache never drops
anything if the texts that queries were got for since the last purge are not more than its
capacity, and then these are the texts of its queries
(`JsonQuery.SharedCache.Run.texts_eq`).

A client who has the cache for himself is one of several who happens to be alone. Compiling
through the cache is one step of his, or two in a row
(`JsonQuery.SharedCache.steps_of_compile`), so what he asks of it makes up a run
(`JsonQuery.SharedCache.exists_run_after`), and all that is known of runs is known of him.
-/

namespace JsonQuery

/-! ### Faithful caches -/

namespace Cache

/-- The texts of the queries that a cache holds. -/
def texts (c : Cache) : List String :=
  c.queries.map Query.text

/-- That a cache holds what compiling would yield, and nothing twice. -/
structure Faithful (c : Cache) : Prop where
  /-- Its queries are what their texts compile to. -/
  compile_text : ∀ q ∈ c.queries, Query.compile q.text = .ok q
  /-- There is one query for each text at most. -/
  nodup : c.texts.Nodup

variable {c : Cache}

theorem faithful_empty (capacity : Nat) : (empty capacity).Faithful where
  compile_text _ hq := absurd hq List.not_mem_nil
  nodup := .nil

theorem mem_of_find? {text : String} {q : Query} (h : c.find? text = some q) :
    q ∈ c.queries ∧ q.text = text :=
  ⟨List.mem_of_find?_eq_some h, by simpa using List.find?_some h⟩

theorem isSome_find?_iff {text : String} : (c.find? text).isSome = true ↔ text ∈ c.texts := by
  simp [find?, texts]

/-- What is found under a text is what the text compiles to. -/
theorem Faithful.compile_of_find? (h : c.Faithful) {text : String} {q : Query}
    (hq : c.find? text = some q) : Query.compile text = .ok q := by
  obtain ⟨hmem, rfl⟩ := mem_of_find? hq
  exact h.compile_text q hmem

/-- A query is found under its text. -/
theorem Faithful.find?_text (h : c.Faithful) {q : Query} (hq : q ∈ c.queries) :
    c.find? q.text = some q := by
  have hsome : (c.find? q.text).isSome = true :=
    isSome_find?_iff.mpr (List.mem_map_of_mem hq)
  obtain ⟨p, hp⟩ := Option.isSome_iff_exists.mp hsome
  have hsame := (h.compile_of_find? hp).symm.trans (h.compile_text q hq)
  rw [hp, Except.ok.inj hsame]

theorem Faithful.shrink (h : c.Faithful) (keep : Query → Bool) : (c.shrink keep).Faithful := by
  rw [Cache.shrink]
  split
  · refine ⟨fun q hq => h.compile_text q (List.mem_filter.mp hq).1, ?_⟩
    exact h.nodup.sublist (List.filter_sublist.map Query.text)
  · exact h

section Insert

variable {q : Query}

/-- A query in place of those that have its text. -/
theorem Faithful.cons (h : c.Faithful) (hq : Query.compile q.text = .ok q) :
    Faithful ⟨c.capacity, q :: c.queries.filter fun p => p.text != q.text⟩ := by
  refine ⟨?_, ?_⟩
  · intro p hp
    rcases List.mem_cons.mp hp with rfl | hp
    · exact hq
    · exact h.compile_text p (List.mem_filter.mp hp).1
  · refine List.nodup_cons.mpr ⟨?_, h.nodup.sublist (List.filter_sublist.map Query.text)⟩
    intro hmem
    obtain ⟨p, hp, htext⟩ := List.mem_map.mp hmem
    have hne : p.text ≠ q.text := by simpa using (List.mem_filter.mp hp).2
    exact hne htext

theorem Faithful.insert (h : c.Faithful) (hq : Query.compile q.text = .ok q)
    (keep : Query → Bool) : (c.insert keep q).Faithful :=
  (h.cons hq).shrink keep

theorem capacity_insert (keep : Query → Bool) : (c.insert keep q).capacity = c.capacity := by
  rw [Cache.insert, Cache.shrink]
  split
  · rfl
  · rfl

theorem toFinset_texts_cons : (texts ⟨c.capacity, q :: c.queries.filter fun p =>
    p.text != q.text⟩).toFinset = Insert.insert q.text c.texts.toFinset := by
  ext text
  simp only [texts, List.map_cons, List.toFinset_cons, Finset.mem_insert, List.mem_toFinset,
    List.mem_map, List.mem_filter, bne_iff_ne]
  refine or_congr_right' fun hne => ⟨?_, ?_⟩
  · rintro ⟨p, ⟨hp, -⟩, rfl⟩
    exact ⟨p, hp, rfl⟩
  · rintro ⟨p, hp, rfl⟩
    exact ⟨p, ⟨hp, hne⟩, rfl⟩

end Insert

/-- A faithful cache holds as many queries as texts. -/
theorem Faithful.size_eq_card (h : c.Faithful) : c.size = c.texts.toFinset.card := by
  rw [List.toFinset_card_of_nodup h.nodup, texts, List.length_map, size]

/-- **Nothing is dropped** as long as there is room for one more text. -/
theorem Faithful.toFinset_texts_insert (h : c.Faithful) {q : Query}
    (hq : Query.compile q.text = .ok q) (keep : Query → Bool)
    (hroom : (Insert.insert q.text c.texts.toFinset).card ≤ c.capacity) :
    (c.insert keep q).texts.toFinset = Insert.insert q.text c.texts.toFinset := by
  have hsize := (h.cons hq).size_eq_card
  rw [toFinset_texts_cons] at hsize
  rw [Cache.insert, Cache.shrink, if_neg, toFinset_texts_cons]
  rw [hsize]
  exact Nat.not_lt.mpr hroom

/-- **What a faithful cache answers** is what compiling would yield. -/
theorem Faithful.result_compile (h : c.Faithful) (keep : Query → Bool) (text : String) :
    (c.compile keep text).result = Query.compile text := by
  rw [compile]
  cases hfind : c.find? text with
  | some q => exact (h.compile_of_find? hfind).symm
  | none => cases Query.compile text <;> rfl

theorem hit_compile_iff (keep : Query → Bool) (text : String) :
    (c.compile keep text).hit = true ↔ text ∈ c.texts := by
  rw [← isSome_find?_iff, compile]
  cases c.find? text with
  | some q => exact Iff.rfl
  | none => cases Query.compile text <;> exact Iff.rfl

end Cache

/-! ### Several clients -/

namespace SharedCache

variable {ι : Type} [DecidableEq ι] {s t : State ι} {e : Event ι}

/-- A client who compiles a text without being interrupted does in one step, or in two, what
compiling it through the cache comes to. -/
theorem steps_of_compile {i : ι} (hi : s.pending i = none) (keep : Query → Bool)
    (text : String) :
    (∃ q, s.cache.compile keep text = ⟨.ok q, true, s.cache⟩ ∧ Step s (.found i text q) s) ∨
      ((s.cache.compile keep text).hit = false ∧ ∃ mid, Step s (.missed i text) mid ∧
        Step mid (.compiled i text (s.cache.compile keep text).result)
          ⟨(s.cache.compile keep text).cache, s.pending⟩) := by
  rw [Cache.compile]
  cases hfind : s.cache.find? text with
  | some q => exact Or.inl ⟨q, rfl, .found hi hfind⟩
  | none =>
    -- the client is back where he was, with nothing left to compile
    have hback : Function.update (Function.update s.pending i (some text)) i none = s.pending := by
      rw [Function.update_idem, ← hi, Function.update_eq_self]
    have hpending : Function.update s.pending i (some text) i = some text :=
      Function.update_self i (some text) s.pending
    right
    simp only
    cases hcompile : Query.compile text with
    | ok q =>
      refine ⟨rfl, _, .missed hi hfind, ?_⟩
      have hkept := Step.kept (s := ⟨s.cache, Function.update s.pending i (some text)⟩)
        hpending hcompile keep
      rwa [hback] at hkept
    | error err =>
      refine ⟨rfl, _, .missed hi hfind, ?_⟩
      have hrefused := Step.refused (s := ⟨s.cache, Function.update s.pending i (some text)⟩)
        hpending hcompile
      rwa [hback] at hrefused

/-! ### One step -/

theorem Step.faithful (h : Step s e t) (hs : s.cache.Faithful) : t.cache.Faithful := by
  cases h with
  | found | missed | refused => exact hs
  | kept _ hcompile keep =>
    obtain ⟨rfl, -⟩ := Query.derivable_of_compile hcompile
    exact hs.insert hcompile keep
  | purged => exact Cache.faithful_empty _

theorem Step.capacity_eq (h : Step s e t) : t.cache.capacity = s.cache.capacity := by
  cases h with
  | found | missed | refused | purged => rfl
  | kept _ _ keep => exact Cache.capacity_insert keep

/-- What a client gets is what compiling yields. -/
theorem Step.result_eq (h : Step s e t) (hs : s.cache.Faithful) {text : String}
    {result : Except Error Query} (he : e.answer? = some (text, result)) :
    result = Query.compile text := by
  cases h with
  | missed | purged => exact absurd he (by simp [Event.answer?])
  | found _ hfind =>
    obtain ⟨rfl, rfl⟩ := Prod.mk.inj (Option.some.inj he)
    exact (hs.compile_of_find? hfind).symm
  | kept _ hcompile | refused _ hcompile =>
    obtain ⟨rfl, rfl⟩ := Prod.mk.inj (Option.some.inj he)
    exact hcompile.symm

/-- A text that does not compile leaves the cache as it is, from when it is looked up until
it is refused. -/
theorem Step.cache_eq_of_error (h : Step s e t) {text : String} (he : e.text? = some text)
    {err : Error} (herror : Query.compile text = .error err) : t.cache = s.cache := by
  cases h with
  | found | missed | refused => rfl
  | kept _ hcompile =>
    obtain rfl := Option.some.inj he
    exact absurd (hcompile.symm.trans herror) (by simp)
  | purged => exact absurd he (by simp [Event.text?])

/-! ### Any number of steps -/

section Run

variable {capacity : Nat} {es : List (Event ι)}

theorem Run.faithful (h : Run capacity es s) : s.cache.Faithful := by
  induction h with
  | start => exact Cache.faithful_empty capacity
  | step _ hs ih => exact hs.faithful ih

theorem Run.capacity_eq (h : Run capacity es s) : s.cache.capacity = capacity := by
  induction h with
  | start => rfl
  | step _ hs ih => exact hs.capacity_eq.trans ih

theorem Run.result_eq (h : Run capacity es s) (he : e ∈ es) {text : String}
    {result : Except Error Query} (hanswer : e.answer? = some (text, result)) :
    result = Query.compile text := by
  induction h with
  | start => exact absurd he List.not_mem_nil
  | step hrun hs ih =>
    rcases List.mem_cons.mp he with rfl | he
    · exact hs.result_eq hrun.faithful hanswer
    · exact ih he

/-- **Which queries are there** as long as none had to be dropped. -/
theorem Run.texts_eq (h : Run capacity es s) (hroom : (texts es).card ≤ capacity) :
    s.cache.texts.toFinset = texts es := by
  induction h with
  | start => rfl
  | @step es s t e hrun hs ih =>
    cases hs with
    | missed | refused => exact ih hroom
    | purged => rfl
    | @found i text q hi hfind =>
      have hbefore := ih (Nat.le_trans (Finset.card_le_card (Finset.subset_insert _ _)) hroom)
      have hmem : text ∈ texts es := by
        rw [← hbefore, List.mem_toFinset, ← Cache.isSome_find?_iff, hfind]
        rfl
      rw [texts, Finset.insert_eq_of_mem hmem]
      exact hbefore
    | @kept i text q hi hcompile keep =>
      obtain ⟨rfl, -⟩ := Query.derivable_of_compile hcompile
      have hbefore := ih (Nat.le_trans (Finset.card_le_card (Finset.subset_insert _ _)) hroom)
      rw [texts, ← hbefore] at hroom ⊢
      rw [← hrun.capacity_eq] at hroom
      exact hrun.faithful.toFinset_texts_insert hcompile keep hroom

/-- As long as none had to be dropped, the queries that are there are those that were got. -/
theorem Run.size_and_hits (h : Run capacity es s) (hroom : (texts es).card ≤ capacity) :
    s.cache.size = (texts es).card ∧
      ∀ keep text, (s.cache.compile keep text).hit = true ↔ text ∈ texts es := by
  refine ⟨?_, fun keep text => ?_⟩
  · rw [h.faithful.size_eq_card, h.texts_eq hroom]
  · rw [Cache.hit_compile_iff, ← List.mem_toFinset, h.texts_eq hroom]

/-- **What one client asks of a cache** that he has for himself makes up a run. -/
theorem exists_run_after (i : ι) (capacity : Nat) (rs : List Cache.Request) :
    ∃ es : List (Event ι), Run capacity es ⟨(Cache.empty capacity).after rs, fun _ => none⟩ ∧
      texts es = Cache.compiledTexts rs := by
  induction rs with
  | nil => exact ⟨[], .start, rfl⟩
  | cons r rs ih =>
    obtain ⟨es, hrun, htexts⟩ := ih
    cases r with
    | purge => exact ⟨.purged i :: es, hrun.step (.purged rfl), rfl⟩
    | compile keep text =>
      have hresult := hrun.faithful.result_compile keep text
      simp only at hresult
      rw [Cache.after, Cache.compiledTexts, ← hresult, ← htexts]
      have hsteps := steps_of_compile
        (s := ⟨(Cache.empty capacity).after rs, fun _ => none⟩) (i := i) rfl keep text
      rcases hsteps with ⟨q, hanswer, hfound⟩ | ⟨-, mid, hmissed, hcompiled⟩
      · rw [hanswer]
        exact ⟨_, hrun.step hfound, rfl⟩
      · refine ⟨_, (hrun.step hmissed).step hcompiled, ?_⟩
        cases ((Cache.empty capacity).after rs |>.compile keep text).result <;> rfl

/-- **A cache that clients share cannot be told from compiling anew**, whatever was done
with it so far. What it holds under a text is what the text compiles to; what a client was
or will be given for a text is what the text compiles to; a text that does not compile leaves
the cache as it is. And as long as queries were got for no more texts than there is room for
since the cache was last purged, be it by one client or by many, it holds one query for each
of these texts, and these are the texts that are hits. That is so in particular for a client
who has the cache for himself and compiles through it what he likes. -/
theorem Run.transparent (h : Run capacity es s) :
    (∀ text q, s.cache.find? text = some q → Query.compile text = .ok q ∧ q.text = text) ∧
      (∀ q ∈ s.cache.queries, s.cache.find? q.text = some q) ∧
      (∀ e ∈ es, ∀ text result, e.answer? = some (text, result) →
        result = Query.compile text) ∧
      (∀ keep text, (s.cache.compile keep text).result = Query.compile text) ∧
      (∀ e t text err, Step s e t → e.text? = some text → Query.compile text = .error err →
        t.cache = s.cache) ∧
      ((texts es).card ≤ capacity → s.cache.size = (texts es).card ∧
        ∀ keep text, (s.cache.compile keep text).hit = true ↔ text ∈ texts es) ∧
      ∀ rs, (Cache.compiledTexts rs).card ≤ capacity →
        ((Cache.empty capacity).after rs).size = (Cache.compiledTexts rs).card ∧
          ∀ keep text, (((Cache.empty capacity).after rs).compile keep text).hit = true ↔
            text ∈ Cache.compiledTexts rs := by
  have hfaithful := h.faithful
  refine ⟨fun text q hq => ?_, fun q => hfaithful.find?_text, fun e he text result => ?_,
    hfaithful.result_compile, fun e t text err hs he => hs.cache_eq_of_error he,
    h.size_and_hits, fun rs hroom => ?_⟩
  · exact ⟨hfaithful.compile_of_find? hq, (Cache.mem_of_find? hq).2⟩
  · exact h.result_eq he
  · obtain ⟨es, hrun, htexts⟩ := exists_run_after () capacity rs
    rw [← htexts] at hroom ⊢
    exact hrun.size_and_hits hroom

end Run

/-- Two clients miss the same text; a third one has both the query of the first one and his
own dropped, and purges the cache, before the second one has his query kept. -/
theorem transparent_of_purge_between :
    ∃ (es : List (Event (Fin 3))) (s : State (Fin 3)), Run 1 es s ∧ es.length = 7 ∧
      s.cache.size = 1 ∧ ∀ keep text, (s.cache.compile keep text).hit = true ↔ text = "a" := by
  obtain ⟨qa, ha⟩ : ∃ q, Query.compile "a" = .ok q := Query.exists_of_isOk (by decide +kernel)
  obtain ⟨qb, hb⟩ : ∃ q, Query.compile "b" = .ok q := Query.exists_of_isOk (by decide +kernel)
  have htext : qa.text = "a" := (Query.derivable_of_compile ha).1
  have hstart : Run 1 [] (start (Fin 3) 1) := .start
  have hmissed := hstart.step (e := .missed 0 "a") (.missed rfl rfl)
  have hboth := hmissed.step (e := .missed 1 "a") (.missed rfl rfl)
  have hfirst := hboth.step (.kept (i := 0) rfl ha fun _ => true)
  have hother := hfirst.step (e := .missed 2 "b") (.missed rfl (by
    simp [Cache.insert, Cache.shrink, Cache.find?, start, Cache.empty, Cache.size, htext]))
  have hdropped := hother.step (.kept (i := 2) rfl hb fun _ => false)
  have hpurged := hdropped.step (.purged (i := 2) rfl)
  have hsecond := hpurged.step (.kept (i := 1) rfl ha fun _ => true)
  obtain ⟨-, -, -, -, -, hroom, -⟩ := hsecond.transparent
  obtain ⟨hsize, hhit⟩ := hroom (Nat.le_refl 1)
  exact ⟨_, _, hsecond, rfl, hsize, fun keep text => (hhit keep text).trans Finset.mem_singleton⟩

end SharedCache

end JsonQuery
