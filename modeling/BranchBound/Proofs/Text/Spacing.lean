import BranchBound.Text.Blank
import Mathlib.Data.List.DropRight

/-! # Words between white space

Words stand in a text one behind the other, with white space between them, and any around them (`Spaced`).  **These
words are the tokens of the text** (`Spaced.tokens_eq`), and trimming leaves a word that stands alone
(`Spaced.trim_eq`).  A text has the same tokens whether it is trimmed or not, and what is left of it begins like the
first of them (`tokens_trim`, `head?_trim`). -/
namespace BranchBound.Text

variable {c : Char} {text rest gap word : List Char} {words : List (List Char)}

/-- There is nothing but white space. -/
def Blank (text : List Char) : Prop := ∀ c ∈ text, isBlank c = true

/-- There is something, and no white space. -/
def IsWord (word : List Char) : Prop := word ≠ [] ∧ ∀ c ∈ word, isBlank c = false

/-- The words stand in the text one behind the other, with white space between them, and it may be around them. -/
inductive Spaced : List (List Char) → List Char → Prop
  | blank {gap : List Char} (h : Blank gap) : Spaced [] gap
  | last {before word : List Char} (h : Blank before) : Spaced [word] (before ++ word)
  | cons {before word gap text : List Char} {words : List (List Char)} (h : Blank before) (hgap : Blank gap)
      (ne : gap ≠ []) (rest : Spaced words text) : Spaced (word :: words) (before ++ word ++ gap ++ text)

theorem IsWord.cons (h : IsWord word) (hc : isBlank c = false) : IsWord (c :: word) :=
  ⟨by simp, List.forall_mem_cons.mpr ⟨hc, h.2⟩⟩

theorem blank_nil : Blank [] := fun _ hc => nomatch hc

theorem blank_singleton : Blank [c] ↔ isBlank c = true := List.forall_mem_singleton

/-! ## Tokens -/

theorem addToPieces_append (c : Char) {front : List (List Char)} (ne : front ≠ []) (back : List (List Char)) :
    addToPieces c (front ++ back) = addToPieces c front ++ back := by
  obtain ⟨piece, pieces, rfl⟩ := List.exists_cons_of_ne_nil ne
  by_cases hc : isBlank c = true
  · simp [addToPieces, hc]
  · simp [addToPieces, hc]

theorem addToPieces_ne_nil (c : Char) (pieces : List (List Char)) : addToPieces c pieces ≠ [] := by
  by_cases hc : isBlank c = true
  · cases pieces <;> simp [addToPieces, hc]
  · cases pieces <;> simp [addToPieces, hc]

theorem pieces_blank (h : isBlank c = true) (text : List Char) : pieces (c :: text) = [] :: pieces text := by
  show addToPieces c (pieces text) = _
  cases pieces text <;> simp [addToPieces, h]

/-- What stands in front of white space is cut on its own; a piece may be left that is empty. -/
theorem foldr_addToPieces (text : List Char) (back : List (List Char)) : ∃ front,
    text.foldr addToPieces ([] :: back) = front ++ back ∧ front ≠ [] ∧
      (front = [[]] ∧ text = [] ∨ text ≠ [] ∧ (front = pieces text ∨ front = pieces text ++ [[]])) := by
  induction text with
  | nil => exact ⟨[[]], rfl, by simp, .inl ⟨rfl, rfl⟩⟩
  | cons c text ih =>
    obtain ⟨front, same, ne, cut⟩ := ih
    refine ⟨addToPieces c front, ?_, addToPieces_ne_nil c front, .inr ⟨by simp, ?_⟩⟩
    · rw [List.foldr_cons, same, addToPieces_append c ne]
    · show _ = addToPieces c (pieces text) ∨ _ = addToPieces c (pieces text) ++ [[]]
      rcases cut with ⟨rfl, rfl⟩ | ⟨inhabited, rfl | rfl⟩
      · by_cases hc : isBlank c = true
        · simp [addToPieces, pieces, hc]
        · simp [addToPieces, pieces, hc]
      · exact .inl rfl
      · refine .inr (addToPieces_append c ?_ _)
        obtain ⟨d, text, rfl⟩ := List.exists_cons_of_ne_nil inhabited
        exact addToPieces_ne_nil d _

/-- **The tokens on both sides of white space are found apart.** -/
theorem tokens_append_blank (h : isBlank c = true) (text rest : List Char) :
    tokens (text ++ c :: rest) = tokens text ++ tokens rest := by
  obtain ⟨front, same, -, cut⟩ := foldr_addToPieces text (pieces rest)
  have whole : pieces (text ++ c :: rest) = front ++ pieces rest := by
    rw [pieces, List.foldr_append, ← same]
    exact congrArg (text.foldr addToPieces) (pieces_blank h rest)
  have left : front.filter (!·.isEmpty) = tokens text := by
    rcases cut with ⟨rfl, rfl⟩ | ⟨-, rfl | rfl⟩
    · rfl
    · rfl
    · rw [List.filter_append, tokens]
      exact List.append_nil _
  rw [tokens, whole, List.filter_append, left]
  rfl

theorem tokens_blank (h : Blank gap) : tokens gap = [] := by
  induction gap with
  | nil => rfl
  | cons c gap ih =>
    have := tokens_append_blank (h c List.mem_cons_self) [] gap
    exact this.trans (ih fun d hd => h d (List.mem_cons_of_mem c hd))

theorem tokens_blank_append (h : Blank gap) (text : List Char) : tokens (gap ++ text) = tokens text := by
  induction gap with
  | nil => rfl
  | cons c gap ih =>
    have := tokens_append_blank (h c List.mem_cons_self) [] (gap ++ text)
    exact this.trans (ih fun d hd => h d (List.mem_cons_of_mem c hd))

theorem tokens_append_gap (h : Blank gap) (ne : gap ≠ []) (text rest : List Char) :
    tokens (text ++ gap ++ rest) = tokens text ++ tokens rest := by
  obtain ⟨c, gap, rfl⟩ := List.exists_cons_of_ne_nil ne
  rw [List.append_assoc, List.cons_append, tokens_append_blank (h c List.mem_cons_self),
    tokens_blank_append fun d hd => h d (List.mem_cons_of_mem c hd)]

theorem tokens_word (h : IsWord word) : tokens word = [word] := by
  obtain ⟨ne, ink⟩ := h
  have whole : pieces word = [word] := by
    induction word with
    | nil => exact absurd rfl ne
    | cons c word ih =>
      have hc := ink c List.mem_cons_self
      show addToPieces c (pieces word) = _
      by_cases last : word = []
      · subst word
        simp [addToPieces, pieces, hc]
      · rw [ih last fun d hd => ink d (List.mem_cons_of_mem c hd)]
        simp [addToPieces, hc]
  rw [tokens, whole]
  exact List.filter_cons_of_pos (by simpa using ne)

/-- **The words of a text are its tokens.** -/
theorem Spaced.tokens_eq (h : Spaced words text) (ink : ∀ word ∈ words, IsWord word) : tokens text = words := by
  induction h with
  | blank h => exact tokens_blank h
  | last h => rw [tokens_blank_append h, tokens_word (ink _ List.mem_cons_self)]
  | cons h hgap ne _ ih =>
    rw [tokens_append_gap hgap ne, tokens_blank_append h, tokens_word (ink _ List.mem_cons_self),
      ih fun word hword => ink word (List.mem_cons_of_mem _ hword)]
    rfl

/-! ## Trimming -/

/-- Trimming takes off white space at both ends, as far as it goes. -/
theorem exists_trim (text : List Char) : ∃ before behind, Blank before ∧ Blank behind ∧
    text = before ++ trim text ++ behind ∧ ∀ c ∈ (trim text).head?, isBlank c = false := by
  refine ⟨text.takeWhile isBlank, (text.dropWhile isBlank).rtakeWhile isBlank, fun c => List.mem_takeWhile_imp,
    fun c => List.mem_rtakeWhile_imp, ?_, ?_⟩
  · have inner : trim text ++ (text.dropWhile isBlank).rtakeWhile isBlank = text.dropWhile isBlank :=
      List.rdropWhile_append_rtakeWhile
    rw [List.append_assoc, inner, List.takeWhile_append_dropWhile]
  · intro c hc
    have front : trim text <+: text.dropWhile isBlank := List.rdropWhile_prefix _ _
    obtain ⟨rest, hrest⟩ := List.head?_eq_some_iff.mp hc
    obtain ⟨behind, same⟩ := hrest ▸ front
    have stop := List.head?_dropWhile_not isBlank text
    rw [← same] at stop
    simpa using stop

theorem tokens_trim (text : List Char) : tokens (trim text) = tokens text := by
  obtain ⟨before, behind, hbefore, hbehind, same, -⟩ := exists_trim text
  conv_rhs => rw [same, List.append_assoc, tokens_blank_append hbefore]
  by_cases none : behind = []
  · rw [none, List.append_nil]
  · have apart := tokens_append_gap hbehind none (trim text) []
    rw [List.append_nil] at apart
    rw [apart]
    exact (List.append_nil _).symm

/-- A text that does not begin with white space begins like its first token. -/
theorem tokens_cons (h : isBlank c = false) (text : List Char) :
    ∃ word words, tokens (c :: text) = (c :: word) :: words := by
  show ∃ word words, (addToPieces c (pieces text)).filter _ = _
  cases pieces text with
  | nil => exact ⟨[], [], by simp [addToPieces, h]⟩
  | cons piece pieces => exact ⟨piece, _, by simp [addToPieces, h]; rfl⟩

/-- **What is left of a text begins like its first token**, if it has any. -/
theorem head?_trim (text : List Char) : (trim text).head? = (tokens text).head?.bind List.head? := by
  obtain ⟨-, -, -, -, -, ink⟩ := exists_trim text
  rw [← tokens_trim]
  rcases htext : trim text with _ | ⟨c, rest⟩
  · rfl
  · obtain ⟨word, words, cut⟩ := tokens_cons (ink c (by rw [htext]; rfl)) rest
    rw [cut]
    rfl

/-- A word with nothing but white space around it is what is left of the text. -/
theorem Spaced.trim_eq (h : Spaced [word] text) (ink : IsWord word) : trim text = word := by
  obtain ⟨ne, ink⟩ := ink
  have bare {before behind : List Char} (hbefore : Blank before) (hbehind : Blank behind) :
      trim (before ++ word ++ behind) = word := by
    have inner : (word ++ behind).dropWhile isBlank = word ++ behind := by
      obtain ⟨c, rest, rfl⟩ := List.exists_cons_of_ne_nil ne
      rw [List.cons_append, List.dropWhile_cons_of_neg]
      simp [ink c List.mem_cons_self]
    have outer : word.reverse.dropWhile isBlank = word.reverse := by
      obtain ⟨c, rest, hword⟩ := List.exists_cons_of_ne_nil (List.reverse_ne_nil_iff.mpr ne)
      rw [hword, List.dropWhile_cons_of_neg]
      have mem : c ∈ word := List.mem_reverse.mp (hword ▸ List.mem_cons_self)
      simp [ink c mem]
    rw [trim, List.append_assoc, List.dropWhile_append_of_pos hbefore, inner, List.reverse_append,
      List.dropWhile_append_of_pos fun c hc => hbehind c (List.mem_reverse.mp hc), outer, List.reverse_reverse]
  cases h with
  | last h =>
    have := bare h blank_nil
    rwa [List.append_nil] at this
  | cons h hgap _ rest =>
    cases rest with
    | blank h' =>
      rw [List.append_assoc]
      exact bare h fun c hc => (List.mem_append.mp hc).elim (hgap c) (h' c)

theorem trim_blank (h : Blank gap) : trim gap = [] := by
  rw [trim, List.dropWhile_eq_nil_iff.mpr h]
  rfl

end BranchBound.Text
