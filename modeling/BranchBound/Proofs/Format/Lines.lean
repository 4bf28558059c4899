import BranchBound.Format.Lines
import BranchBound.Proofs.Outcome

/-! # Lines of a text

Files are read as bytes and cut behind every line feed before any character is looked at.  A line feed is not part
of the encoding of another character, so **the lines of an encoded text are the lines of the text**
(`Lines.ofBytes_toUTF8`), and all of them can be read.

Of a reader that succeeds it is said which lines it has used up, and what was on them. -/
namespace BranchBound
namespace Lines

/-- Puts a character in front of lines: a line feed ends a line, any other character joins the first. -/
def addToText (c : Char) : List (List Char) → List (List Char)
  | [] => if c = '\n' then [[]] else [[c]]
  | line :: lines => if c = '\n' then [] :: line :: lines else (c :: line) :: lines

/-- The lines of a text, each trimmed. -/
def ofText (text : String) : List (List Char) := (text.toList.foldr addToText []).map Text.trim

example : ofText "1 2\r\n\n 3" = [['1', ' ', '2'], [], ['3']] := by decide +kernel

/-- The bytes of characters, one after another. -/
def encode (text : List Char) : List UInt8 := text.flatMap String.utf8EncodeChar

theorem notMem_utf8EncodeChar {c : Char} (h : c ≠ '\n') : 10 ∉ String.utf8EncodeChar c := by
  have code : c.val.toNat ≠ 10 := fun heq => h (Char.ext (UInt32.toNat_inj.mp heq))
  have byte {n : Nat} (hn : n % 256 ≠ 10) : 10 ≠ UInt8.ofNat n := fun heq =>
    hn (congrArg UInt8.toNat heq).symm
  unfold String.utf8EncodeChar
  dsimp only
  split
  · rw [List.mem_singleton]
    exact byte (by omega)
  · split
    · simp only [List.mem_cons, List.not_mem_nil, or_false, not_or]
      exact ⟨byte (by omega), byte (by omega)⟩
    · split
      · simp only [List.mem_cons, List.not_mem_nil, or_false, not_or]
        exact ⟨byte (by omega), byte (by omega), byte (by omega)⟩
      · simp only [List.mem_cons, List.not_mem_nil, or_false, not_or]
        exact ⟨byte (by omega), byte (by omega), byte (by omega), byte (by omega)⟩

/-- Bytes without a line feed join the first line. -/
theorem foldr_addToLines {bytes line : List UInt8} {lines : List (List UInt8)} (h : 10 ∉ bytes) :
    bytes.foldr addToLines (line :: lines) = (bytes ++ line) :: lines := by
  induction bytes with
  | nil => rfl
  | cons byte bytes ih =>
    obtain ⟨here, rest⟩ := not_or.mp (mt List.mem_cons.mpr h)
    rw [List.foldr_cons, ih rest, addToLines, if_neg (Ne.symm here), List.cons_append]

theorem foldr_addToLines_nil {bytes : List UInt8} (h : 10 ∉ bytes) (ne : bytes ≠ []) :
    bytes.foldr addToLines [] = [bytes] := by
  obtain ⟨before, last, rfl⟩ : ∃ before last, bytes = before ++ [last] :=
    ⟨_, _, (List.dropLast_concat_getLast ne).symm⟩
  obtain ⟨h, here⟩ := not_or.mp (mt List.mem_append.mpr h)
  have other : last ≠ 10 := fun heq => here (List.mem_singleton.mpr heq.symm)
  rw [List.foldr_append, List.foldr_cons, List.foldr_nil, addToLines, if_neg other, foldr_addToLines h]

/-- **It does not matter whether a text is cut into lines before or after it is encoded.** -/
theorem split_encode (text : List Char) : split (encode text) = (text.foldr addToText []).map encode := by
  induction text with
  | nil => rfl
  | cons c text ih =>
    unfold split encode at ih ⊢
    rw [List.flatMap_cons, List.foldr_append, ih, List.foldr_cons]
    by_cases hc : c = '\n'
    · subst hc
      cases text.foldr addToText [] with
      | nil => rfl
      | cons line lines => rfl
    · cases text.foldr addToText [] with
      | nil =>
        rw [List.map_nil, foldr_addToLines_nil (notMem_utf8EncodeChar hc) String.utf8EncodeChar_ne_nil, addToText,
          if_neg hc]
        simp
      | cons line lines =>
        rw [List.map_cons, foldr_addToLines (notMem_utf8EncodeChar hc), addToText, if_neg hc, List.map_cons,
          List.flatMap_cons]

theorem decode_encode (line : List Char) : decode (encode line) = some (Text.trim line) := by
  have bytes : (⟨(encode line).toArray⟩ : ByteArray) = line.utf8Encode := ByteArray.ext List.data_toByteArray.symm
  have read : String.fromUTF8? line.utf8Encode = some (String.ofList line) := by
    rw [← String.toByteArray_ofList, String.fromUTF8?, dif_pos (String.ofList line).isValidUTF8]
    rfl
  rw [decode, bytes, read, Option.map_some, String.toList_ofList]

/-- **The lines of an encoded text are the lines of the text.** -/
theorem ofBytes_toUTF8 (text : String) : ofBytes text.toUTF8 = { rest := (ofText text).map some } := by
  have bytes : text.toUTF8.data.toList = encode text.toList := by
    rw [String.toUTF8_eq_toByteArray, ← String.utf8Encode_toList]
    exact List.toList_data_toByteArray
  rw [ofBytes, bytes, split_encode, ofText, List.map_map, List.map_map]
  exact congrArg (fun rest => ({ rest } : Lines)) (List.map_congr_left fun line _ => decode_encode line)

/-- Of lines that can all be read, what was not used up can be read as well. -/
theorem exists_left {texts used : List (List Char)} {rest : List (Option (List Char))}
    (h : texts.map some = used.map some ++ rest) :
    ∃ left, texts = used ++ left ∧ rest = left.map some := by
  obtain ⟨used', left, rfl, same, hleft⟩ := List.map_eq_append_iff.mp h
  obtain rfl := (List.map_inj_right fun _ _ => Option.some.inj).mp same
  exact ⟨left, rfl, hleft.symm⟩

end Lines

/-! ## Readers that succeed -/

namespace Reader
variable {α β : Type} {lines lines' : Lines} {line : Line} {part : String} {n : Nat} {row : List Int}
  {number? : List Char → Option Int}

theorem of_bind {ε : Type} {x : Except ε α} {f : α → Except ε β} {b : β} (h : x >>= f = .ok b) :
    ∃ a, x = .ok a ∧ f a = .ok b := by
  cases x with
  | ok a => exact ⟨a, rfl, h⟩
  | error e => cases h

theorem of_ofExcept {x : Except FormatError α} {a : α} (h : ofExcept x lines = .ok a lines') :
    x = .ok a ∧ lines' = lines := by
  cases x with
  | ok b =>
    cases h
    exact ⟨rfl, rfl⟩
  | error e => cases h

theorem of_expect (h : expect part lines = .ok line lines') : lines.rest = some line.text :: lines'.rest := by
  obtain ⟨line?, read, hnext, h⟩ := bind_eq_ok h
  unfold next at hnext
  split at hnext
  · cases hnext
    cases h
  · cases hnext
  · rename_i text rest hrest
    cases hnext
    cases h
    exact hrest

theorem of_count (h : count part lines = .ok n lines') :
    ∃ text, lines.rest = some text :: lines'.rest ∧ Text.integer? text = some (n : Int) := by
  obtain ⟨line, read, hline, h⟩ := bind_eq_ok h
  refine ⟨line.text, ?_⟩
  rw [of_expect hline]
  cases hn : Text.integer? line.text with
  | none =>
    rw [hn] at h
    cases h
  | some x =>
    rw [hn] at h
    cases x with
    | ofNat m =>
      cases h
      exact ⟨rfl, rfl⟩
    | negSucc m => cases h

/-- The numbers on a line, if it holds nothing else. -/
def numbers? (number? : List Char → Option Int) (text : List Char) : Option (List Int) :=
  (Text.tokens text).mapM number?

theorem of_values (h : values number? line = .ok row) : numbers? number? line.text = some row := by
  unfold values at h
  unfold numbers?
  generalize Text.tokens line.text = tokens at h ⊢
  induction tokens generalizing row with
  | nil =>
    cases h
    rfl
  | cons token tokens ih =>
    rw [List.mapM_cons] at h ⊢
    obtain ⟨x, hx, h⟩ := of_bind h
    obtain ⟨xs, hxs, h⟩ := of_bind h
    cases h
    cases hnumber : number? token with
    | none =>
      rw [hnumber] at hx
      cases hx
    | some y =>
      rw [hnumber] at hx
      cases hx
      rw [ih hxs]
      rfl

theorem of_exactly (h : exactly number? n line = .ok row) :
    numbers? number? line.text = some row ∧ row.length = n := by
  obtain ⟨xs, hxs, h⟩ := of_bind h
  split at h
  · rename_i length
    cases h
    exact ⟨of_values hxs, length⟩
  · cases h

end Reader
end BranchBound
