import PacketTree.Namespace.Basic
import PacketTree.Proofs.Text.Address

/-!
# Namespaces are known by their texts

The kind of a token is told from the marks around its name. Names may hold such marks themselves, and the
tests for them overlap: `*` alone is a mark, `<` alone is a name, and `**a` is the mark `*` with the name
`*a`. This module proves that what is written can be read back all the same.

## What is proved

* `words_eq`: the words of a text are its pieces between blanks that are not empty.
* `Token.text_ofWord`: a token that was read is written as the word that it was read from.
* `parse_text`: a text that was read and written again has its words with a space between them, and a
  namespace that was made from texts and names is known by its text.

## The model

`Named` are the namespaces made from texts and links by adding names, where a confirmed name must not
look like a token of another kind. The tokens of such a namespace are `Legible`: each can be read back
from its text.
-/

namespace PacketTree

/-! ### Words -/

namespace Text

/-- A text without blanks. -/
def Unbroken (s : List Char) : Prop := ∀ c ∈ s, isBlank c = false

instance (s : List Char) : Decidable (Unbroken s) :=
  decidable_of_iff (s.any isBlank = false) (by simp only [Unbroken, List.any_eq_false,
    Bool.not_eq_true])

theorem wordsFrom_eq (word s : List Char) :
    wordsFrom word s =
      ((s.splitOnPPrepend isBlank word).filter (· ≠ [])).map String.ofList := by
  induction s generalizing word with
  | nil =>
    rw [wordsFrom, List.splitOnPPrepend_nil]
    rcases word with _ | ⟨c, word⟩ <;> simp
  | cons c s ih =>
    rw [wordsFrom]
    by_cases hc : isBlank c = true
    · rw [if_pos hc, List.splitOnPPrepend_cons_pos hc, ih]
      rcases word with _ | ⟨d, word⟩ <;> simp
    · rw [if_neg hc, List.splitOnPPrepend_cons_neg (by simpa using hc), ih]

/-- **The words of a text** are its pieces between blanks that are not empty. -/
theorem words_eq (t : String) :
    words t = ((t.toList.splitOnP isBlank).filter (· ≠ [])).map String.ofList :=
  wordsFrom_eq [] t.toList

/-- A word is not empty and has no blanks. -/
theorem of_mem_words {t w : String} (h : w ∈ words t) : w.toList ≠ [] ∧ Unbroken w.toList := by
  have hpieces : ∀ (s : List Char) (word : List Char), Unbroken word →
      ∀ p ∈ s.splitOnPPrepend isBlank word, Unbroken p := by
    intro s
    induction s with
    | nil =>
      intro word hword p hp
      rw [List.splitOnPPrepend_nil, List.mem_singleton] at hp
      intro c hc
      exact hword c (by simpa [hp] using hc)
    | cons c s ih =>
      intro word hword p hp
      by_cases hc : isBlank c = true
      · rw [List.splitOnPPrepend_cons_pos hc] at hp
        rcases List.mem_cons.mp hp with rfl | hp
        · intro d hd
          exact hword d (by simpa using hd)
        · exact ih [] (List.forall_mem_nil _) p hp
      · have hfalse : isBlank c = false := by simpa using hc
        rw [List.splitOnPPrepend_cons_neg hfalse] at hp
        exact ih (c :: word) (List.forall_mem_cons.mpr ⟨hfalse, hword⟩) p hp
  rw [words_eq, List.mem_map] at h
  obtain ⟨p, hp, rfl⟩ := h
  obtain ⟨hp, hne⟩ := List.mem_filter.mp hp
  rw [String.toList_ofList]
  exact ⟨by simpa using hne, hpieces t.toList [] (List.forall_mem_nil _) p hp⟩

/-- Words with a space between them are the words of what they make together. -/
theorem words_intercalate {ws : List String} (h : ∀ w ∈ ws, w.toList ≠ [] ∧ Unbroken w.toList) :
    words (" ".intercalate ws) = ws := by
  rw [words_eq, String.toList_intercalate]
  induction ws with
  | nil => rfl
  | cons w ws ih =>
    obtain ⟨⟨hne, hw⟩, hws⟩ := List.forall_mem_cons.mp h
    rcases ws with _ | ⟨v, ws⟩
    · have hone : [' '].intercalate [w.toList] = w.toList := List.intercalate_singleton ..
      have hsplit : w.toList.splitOnP isBlank = [w.toList] := List.splitOnP_eq_singleton hw
      simp [hsplit, hne]
    · have hsplit : ([' '].intercalate ((w :: v :: ws).map String.toList)).splitOnP isBlank =
          w.toList :: ([' '].intercalate ((v :: ws).map String.toList)).splitOnP isBlank := by
        rw [List.map_cons, List.map_cons, List.intercalate_cons_cons, List.append_assoc]
        exact List.splitOnP_append_cons_of_forall_mem hw ' ' (by decide) _
      rw [show (" ".toList) = [' '] from rfl] at ih ⊢
      rw [hsplit, List.filter_cons_of_pos (by simpa using hne), List.map_cons, ih hws,
        String.ofList_toList]

end Text

/-! ### Tokens -/

namespace Token

/-- A name that stands for a confirmed token and for no token of another kind. -/
structure Confirmable (name : String) : Prop where
  /-- It is not empty, -/
  nonempty : name ≠ ""
  /-- has no blanks, -/
  unbroken : Text.Unbroken name.toList
  /-- does not start like a tentative token, -/
  unstarred : ∀ rest, name.toList ≠ '*' :: rest
  /-- and does not stand between angle brackets. -/
  unbracketed : ∀ inner, name.toList ≠ '<' :: (inner ++ ['>'])

/-- A token that can be read back from its text. -/
def Legible : Token → Prop
  | .confirmed name => Confirmable name
  | .tentative name | .placeholder name => Text.Unbroken name.toList

theorem bracketed?_eq_some_iff {s inner : List Char} :
    bracketed? s = some inner ↔ s = '<' :: (inner ++ ['>']) := by
  constructor
  · intro h
    unfold bracketed? at h
    split at h
    · next rest =>
      split at h
      · next hlast =>
        cases h
        rw [List.dropLast_append_getLast? '>' hlast]
      · cases h
    · cases h
  · rintro rfl
    rw [bracketed?, List.getLast?_concat, if_pos rfl, List.dropLast_concat]

theorem bracketed?_eq_none_iff {s : List Char} :
    bracketed? s = none ↔ ∀ inner, s ≠ '<' :: (inner ++ ['>']) := by
  rw [Option.eq_none_iff_forall_ne_some]
  exact forall_congr' fun inner => not_congr bracketed?_eq_some_iff

theorem ofWord_of_star {w : String} {rest : List Char} (h : w.toList = '*' :: rest) :
    ofWord w = .tentative (String.ofList rest) := by
  rw [ofWord, h]
  rfl

/-- Without a star the brackets decide. -/
theorem ofWord_of_not_star {w : String} (h : ∀ rest, w.toList ≠ '*' :: rest) :
    ofWord w = match bracketed? w.toList with
      | some inner => .placeholder (String.ofList inner)
      | none => .confirmed w := by
  rw [ofWord]
  split
  · next rest hw => exact absurd hw (h rest)
  · rfl

/-- **A token that was read is written as its word.** -/
theorem text_ofWord (w : String) : (ofWord w).text = w := by
  by_cases hstar : ∃ rest, w.toList = '*' :: rest
  · obtain ⟨rest, hrest⟩ := hstar
    rw [ofWord_of_star hrest, text, ← String.toList_inj, hrest]
    simp
  · rw [ofWord_of_not_star (not_exists.mp hstar)]
    rcases hb : bracketed? w.toList with _ | inner
    · rfl
    · rw [bracketed?_eq_some_iff] at hb
      dsimp only
      rw [text, ← String.toList_inj, hb]
      simp

/-- The token of a word can be read back. -/
theorem legible_ofWord {w : String} (hne : w.toList ≠ []) (hw : Text.Unbroken w.toList) :
    (ofWord w).Legible := by
  by_cases hstar : ∃ rest, w.toList = '*' :: rest
  · obtain ⟨rest, hrest⟩ := hstar
    rw [ofWord_of_star hrest]
    intro c hc
    rw [String.toList_ofList] at hc
    exact hw c (hrest ▸ List.mem_cons_of_mem _ hc)
  · rw [ofWord_of_not_star (not_exists.mp hstar)]
    rcases hb : bracketed? w.toList with _ | inner
    · refine ⟨fun hempty => hne ?_, hw, not_exists.mp hstar, bracketed?_eq_none_iff.mp hb⟩
      rw [hempty]
      rfl
    · rw [bracketed?_eq_some_iff] at hb
      intro c hc
      rw [String.toList_ofList] at hc
      refine hw c (hb ▸ ?_)
      exact List.mem_cons_of_mem _ (List.mem_append_left _ hc)

/-- **What is legible is read back.** -/
theorem ofWord_text {t : Token} (h : t.Legible) : ofWord t.text = t := by
  cases t with
  | confirmed name =>
    rw [text, ofWord_of_not_star h.unstarred, bracketed?_eq_none_iff.mpr h.unbracketed]
  | tentative name =>
    have htext : (Token.tentative name).text.toList = '*' :: name.toList := by
      rw [text, String.toList_append]
      rfl
    rw [ofWord_of_star htext, String.ofList_toList]
  | placeholder name =>
    have htext : (Token.placeholder name).text.toList = '<' :: (name.toList ++ ['>']) := by
      rw [text, String.toList_append, String.toList_append]
      rfl
    have hstar : ∀ rest, (Token.placeholder name).text.toList ≠ '*' :: rest := by
      intro rest hrest
      rw [htext, List.cons.injEq] at hrest
      exact absurd hrest.1 (by decide)
    rw [ofWord_of_not_star hstar, bracketed?_eq_some_iff.mpr htext]
    dsimp only
    rw [String.ofList_toList]

/-- The text of a legible token is a word. -/
theorem word_text {t : Token} (h : t.Legible) : t.text.toList ≠ [] ∧ Text.Unbroken t.text.toList := by
  have hmark : Text.Unbroken ['*', '<', '>'] := by decide
  cases t with
  | confirmed name =>
    refine ⟨fun hempty => h.nonempty ?_, h.unbroken⟩
    rwa [text, ← String.toList_empty, String.toList_inj] at hempty
  | tentative name =>
    rw [text, String.toList_append]
    refine ⟨by simp, fun c hc => ?_⟩
    rcases List.mem_cons.mp (show c ∈ '*' :: name.toList from hc) with rfl | hc
    · exact hmark _ (by simp)
    · exact h c hc
  | placeholder name =>
    rw [text, String.toList_append, String.toList_append]
    refine ⟨by simp, fun c hc => ?_⟩
    rcases List.mem_cons.mp (show c ∈ '<' :: (name.toList ++ ['>']) from hc) with rfl | hc
    · exact hmark _ (by simp)
    · rcases List.mem_append.mp hc with hc | hc
      · exact h c hc
      · rw [List.mem_singleton.mp hc]
        exact hmark _ (by simp)

end Token

/-! ### Namespaces -/

namespace Namespace

open Token

variable {ns ms : Namespace} {name : String}

/-- A namespace made from texts and links by adding names that can be told apart from marks. -/
inductive Named : Namespace → Prop where
  /-- What a text stands for. -/
  | parse (t : String) : Named (parse t)
  /-- A link type that nothing is known of. -/
  | link (number : ℕ) : Named (link number)
  /-- A protocol confirmed in place of the one announced. -/
  | descend {ns : Namespace} {name : String} (before : Named ns) (h : Confirmable name) :
      Named (ns.descend name)
  /-- A protocol announced in place of the one announced before. -/
  | announce {ns : Namespace} {name : String} (before : Named ns) (h : Text.Unbroken name.toList) :
      Named (ns.announce name)
  /-- A confirmed protocol more. -/
  | push {ns : Namespace} {name : String} (before : Named ns) (h : Confirmable name) :
      Named (ns.push name)

theorem mem_of_mem_settled {t : Token} (h : t ∈ ns.settled) : t ∈ ns.tokens := by
  unfold settled at h
  split at h
  · exact (List.dropLast_sublist _).subset h
  · exact h

theorem unbroken_link (number : ℕ) : Text.Unbroken ("link:" ++ toString number).toList := by
  have hlink : Text.Unbroken "link:".toList := by decide
  have hdigits : Text.Unbroken Text.digits := by decide
  intro c hc
  rw [String.toList_append, List.mem_append] at hc
  rcases hc with hc | hc
  · exact hlink c hc
  · rw [show toString number = number.repr from rfl, Nat.toList_repr] at hc
    exact hdigits c (Text.mem_digits_of_mem_toDigits (by decide) (by decide) hc)

/-- Every token of a namespace that was made so is legible. -/
theorem Named.legible (h : Named ns) : ∀ t ∈ ns.tokens, t.Legible := by
  induction h with
  | parse t =>
    intro token htoken
    obtain ⟨w, hw, rfl⟩ := List.mem_map.mp htoken
    obtain ⟨hne, hunbroken⟩ := Text.of_mem_words hw
    exact legible_ofWord hne hunbroken
  | link number =>
    intro token htoken
    rw [List.mem_singleton.mp htoken]
    exact unbroken_link number
  | descend _ h ih | announce _ h ih =>
    exact List.forall_mem_append.mpr
      ⟨fun t ht => ih t (mem_of_mem_settled ht), List.forall_mem_singleton.mpr h⟩
  | push _ h ih => exact List.forall_mem_append.mpr ⟨ih, List.forall_mem_singleton.mpr h⟩

/-- A namespace of legible tokens is read back from its text. -/
theorem parse_text_of_legible (h : ∀ t ∈ ns.tokens, t.Legible) : parse ns.text = ns := by
  have hwords : Text.words ns.text = ns.tokens.map Token.text :=
    Text.words_intercalate fun w hw => by
      obtain ⟨t, ht, rfl⟩ := List.mem_map.mp hw
      exact word_text (h t ht)
  have htokens : (ns.tokens.map Token.text).map ofWord = ns.tokens := by
    rw [List.map_map]
    exact (List.map_congr_left fun t ht => ofWord_text (h t ht)).trans (List.map_id _)
  rw [parse, hwords, htokens]

/-- **Namespaces are known by their texts.** A text that was read and written has its words with a space
between them, and reads as the same namespace again. A namespace that was made from texts, links and names
is read back from its text, every token with its kind, so two of them are equal exactly if their texts
are. -/
theorem parse_text (t : String) (hns : Named ns) (hms : Named ms) :
    (parse t).text =
        " ".intercalate (((t.toList.splitOnP Text.isBlank).filter (· ≠ [])).map String.ofList) ∧
      parse (parse t).text = parse t ∧ parse ns.text = ns ∧ (ns.text = ms.text ↔ ns = ms) := by
  have hback : ∀ {ns : Namespace}, Named ns → parse ns.text = ns := fun h =>
    parse_text_of_legible h.legible
  refine ⟨?_, hback (.parse t), hback hns, fun heq => ?_, congrArg text⟩
  · rw [← Text.words_eq, text, parse, List.map_map]
    exact congrArg _ ((List.map_congr_left fun w _ => text_ofWord w).trans (List.map_id _))
  · rw [← hback hns, heq, hback hms]

/-- Names that are full of marks, and a link that was never announced. -/
theorem parse_text_marks :
    let ns := (parse " **a\t<> <").announce "<b>"
    let ms := ((link 1).descend "c*").push "<"
    parse ns.text = ns ∧ (ns.text = ms.text ↔ ns = ms) := by
  have hname : Confirmable "c*" := ⟨by decide, by decide, by simp, by simp⟩
  have hbracket : Confirmable "<" := ⟨by decide, by decide, by simp, by simp⟩
  have hannounced : Text.Unbroken "<b>".toList := by decide
  exact (parse_text "" (.announce (.parse " **a\t<> <") hannounced)
    (.push (.descend (.link 1) hname) hbracket)).2.2

end Namespace

end PacketTree
