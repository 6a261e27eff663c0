import Chip8.Listing
import Chip8.Proofs.Instruction.Mnemonic

namespace Chip8.Listing

/-- The word at a place of a program, counted in words. What lies past the end is zero. -/
def wordAt (rom : List UInt8) (n : Nat) : Word :=
  Word.ofBytes (rom.getD (2 * n) 0) (rom.getD (2 * n + 1) 0)

theorem wordAt_odd {rom : List UInt8} {n : Nat} (h : rom.length = 2 * n + 1) :
    wordAt rom n = Word.ofBytes (rom.getD (2 * n) 0) 0 := by
  have hnone : rom[2 * n + 1]? = none := List.getElem?_eq_none (Nat.le_of_eq h)
  rw [wordAt, List.getD_eq_getElem?_getD (i := 2 * n + 1), hnone]
  rfl

/-- The program in whole words. -/
def padded (rom : List UInt8) : List UInt8 := if rom.length % 2 = 0 then rom else rom ++ [0]

theorem length_words (rom : List UInt8) : (words rom).length = (rom.length + 1) / 2 := by
  induction rom using words.induct with
  | case1 => rfl
  | case2 high => simp [words]
  | case3 high low rest ih =>
    simp only [words, List.length_cons, ih]
    omega

theorem getElem?_words (rom : List UInt8) (n : Nat) :
    (words rom)[n]? = if 2 * n < rom.length then some (wordAt rom n) else none := by
  induction rom using words.induct generalizing n with
  | case1 => rfl
  | case2 high => cases n <;> simp [words, wordAt]
  | case3 high low rest ih =>
    cases n with
    | zero => simp [words, wordAt]
    | succ n =>
      have hlength : 2 * (n + 1) < (high :: low :: rest).length ↔ 2 * n < rest.length := by
        simp only [List.length_cons]
        omega
      simp only [words, List.getElem?_cons_succ, ih, hlength]
      rfl

theorem padded_cons_cons (high low : UInt8) (rest : List UInt8) :
    padded (high :: low :: rest) = high :: low :: padded rest := by
  have hparity : (high :: low :: rest).length % 2 = rest.length % 2 := Nat.add_mod_right _ 2
  simp only [padded, hparity]
  split <;> rfl

theorem bytes?_dump (high low : UInt8) (rest : List Char) :
    Hex.bytes? ((Word.ofBytes high low).dump.toList ++ rest) =
      (Hex.bytes? rest).map fun bytes => high :: low :: bytes := by
  have hhigh := high.toNat_lt
  have hlow := low.toNat_lt
  have hbyte (b : UInt8) : UInt8.ofNat (16 * (b.toNat / 16) + b.toNat % 16) = b := by
    rw [Nat.div_add_mod, UInt8.ofNat_toNat]
  simp only [Word.toList_dump_ofBytes, List.cons_append, List.nil_append]
  rw [Hex.bytes?_digits (by omega) (by omega), Hex.bytes?_digits (by omega) (by omega), hbyte, hbyte,
    Option.map_map]
  rfl

/-- The digits of the words are those of the program. -/
theorem bytes?_words (rom : List UInt8) :
    Hex.bytes? ((words rom).flatMap fun w => w.dump.toList) = some (padded rom) := by
  induction rom using words.induct with
  | case1 => rfl
  | case2 high => exact bytes?_dump high 0 []
  | case3 high low rest ih =>
    rw [words, List.flatMap_cons, bytes?_dump, ih, padded_cons_cons]
    rfl

theorem length_linesFrom (address : Nat) (ws : List Word) :
    (linesFrom address ws).length = ws.length := by
  induction ws generalizing address with
  | nil => rfl
  | cons w rest ih => rw [linesFrom, List.length_cons, ih, List.length_cons]

theorem getElem?_linesFrom (address : Nat) (ws : List Word) (n : Nat) :
    (linesFrom address ws)[n]? = ws[n]?.map (line (address + 2 * n)) := by
  induction ws generalizing address n with
  | nil => rfl
  | cons w rest ih =>
    cases n with
    | zero => rfl
    | succ n =>
      have hnext : address + 2 + 2 * n = address + 2 * (n + 1) := by omega
      rw [linesFrom, List.getElem?_cons_succ, List.getElem?_cons_succ, ih, hnext]

/-- The line for a word of a program, after the header. -/
theorem getElem?_lines (name : String) {rom : List UInt8} {n : Nat} (h : 2 * n < rom.length) :
    (lines name rom)[n + 1]? = some (line (0x200 + 2 * n) (wordAt rom n)) := by
  rw [lines, List.getElem?_cons_succ, getElem?_linesFrom, getElem?_words, if_pos h]
  rfl

theorem plain_line (address : Nat) (w : Word) : Plain (line address w) := by
  simp +decide [line, Word.dump_eq_text, w.plain_mnemonic]

theorem plain_of_mem_linesFrom {address : Nat} {ws : List Word} {l : String}
    (h : l ∈ linesFrom address ws) : Plain l := by
  induction ws generalizing address with
  | nil => cases h
  | cons w rest ih =>
    rcases List.mem_cons.mp h with rfl | h
    · exact plain_line address w
    · exact ih h

/-- The second column of a line, past the address and two blanks. -/
def wordColumn (l : List Char) : List Char := ((l.dropWhile (· != ' ')).drop 2).take 4

theorem toList_line (address : Nat) (w : Word) :
    (line address w).toList = Hex.digits 3 address ++
      ' ' :: ' ' :: (w.dump.toList ++ ' ' :: ' ' :: w.mnemonic.toList) := by
  simp [line, Hex.text]

theorem wordColumn_line (address : Nat) (w : Word) :
    wordColumn (line address w).toList = w.dump.toList := by
  have haddress : ∀ c ∈ Hex.digits 3 address, (c != ' ') = true :=
    fun c hc => bne_iff_ne.mpr (Hex.ne_of_mem_digits hc).1
  have hlength : w.dump.toList.length = 4 := by
    simp [Word.dump, Word.nibbles]
  rw [wordColumn, toList_line, List.dropWhile_append_of_pos haddress]
  exact List.take_left' hlength

/-- Lines that each end in a line feed, as one text. -/
def joined (ls : List String) : String := String.join (ls.map (· ++ "\n"))

theorem toList_joined_cons (l : String) (rest : List String) :
    (joined (l :: rest)).toList = l.toList ++ '\n' :: (joined rest).toList := by
  simp [joined]

theorem splitOn_joined {ls : List String} (h : ∀ l ∈ ls, Plain l) :
    (joined ls).toList.splitOn '\n' = ls.map String.toList ++ [[]] := by
  induction ls with
  | nil => rfl
  | cons l rest ih =>
    have hl : ∀ c ∈ l.toList, (c == '\n') = false := by
      rintro c hc
      rw [beq_eq_false_iff_ne]
      rintro rfl
      exact (h l List.mem_cons_self).1 hc
    have hrest := ih fun l hl => h l (List.mem_cons_of_mem _ hl)
    rw [List.splitOn_eq_splitOnP] at hrest ⊢
    rw [toList_joined_cons, List.splitOnP_append_cons_of_forall_mem hl '\n' rfl, hrest]
    rfl

theorem equals_not_mem_joined {ls : List String} (h : ∀ l ∈ ls, Plain l) :
    '=' ∉ (joined ls).toList := by
  induction ls with
  | nil => decide
  | cons l rest ih =>
    have hl := (h l List.mem_cons_self).2
    have hrest := ih fun l hl => h l (List.mem_cons_of_mem _ hl)
    rw [toList_joined_cons, List.mem_append, List.mem_cons]
    rintro (hin | hfeed | hin)
    · exact hl hin
    · cases hfeed
    · exact hrest hin

theorem toList_loop (b : ByteArray) (i : Nat) (front : List UInt8) :
    ByteArray.toList.loop b i front = front.reverse ++ b.data.toList.drop i := by
  fun_induction ByteArray.toList.loop b i front with
  | case1 i front hlt ih =>
    have hget : b.get! i = b.data.toList[i] := getElem!_pos b.data i hlt
    rw [ih, List.drop_eq_getElem_cons hlt, hget, List.reverse_cons, List.append_assoc]
    rfl
  | case2 i front hge => rw [List.drop_eq_nil_of_le (Nat.le_of_not_lt hge), List.append_nil]

theorem toByteArray_toList (b : ByteArray) : b.toList.toByteArray = b := by
  apply ByteArray.ext
  rw [List.data_toByteArray, ByteArray.toList, toList_loop]
  rfl

/-- The bytes of a listing are its text and nothing else. -/
theorem fromUTF8?_bytes (name : String) (rom : List UInt8) :
    String.fromUTF8? (bytes name rom).toByteArray = some (text name rom) := by
  have hvalid : (text name rom).toUTF8.IsValidUTF8 := (text name rom).isValidUTF8
  rw [bytes, toByteArray_toList, String.fromUTF8?, dif_pos hvalid]
  rfl

/-- What a text has after its last `=`. -/
def afterEquals (text : List Char) : List Char := (text.reverse.takeWhile (· != '=')).reverse

theorem afterEquals_append (front : List Char) {rest : List Char} (h : '=' ∉ rest) :
    afterEquals (front ++ '=' :: rest) = rest := by
  have hrest : ∀ c ∈ rest.reverse, (c != '=') = true := by
    rintro c hc
    rw [bne_iff_ne]
    rintro rfl
    exact h (List.mem_reverse.mp hc)
  rw [afterEquals, List.reverse_append, List.reverse_cons, List.append_assoc,
    List.takeWhile_append_of_pos hrest]
  simp

/-- Reads a program back from its listing. The last `=` of the text is the end of the header, whatever
name it has in it. -/
def read? (listing : String) : Option (List UInt8) :=
  let body := (afterEquals listing.toList).drop 1
  Hex.bytes? ((body.splitOn '\n').flatMap wordColumn)

theorem text_eq (name : String) (rom : List UInt8) :
    text name rom =
      "== " ++ name ++ " ==\n" ++ joined (linesFrom Memory.programStart (words rom)) := by
  have hend : " ==\n" = " ==" ++ "\n" := by decide
  simp only [text, lines, header, joined, List.map_cons, String.join_cons, String.append_assoc, hend]

theorem wordColumns_linesFrom (address : Nat) (ws : List Word) :
    ((linesFrom address ws).map String.toList ++ [[]]).flatMap wordColumn =
      ws.flatMap fun w => w.dump.toList := by
  induction ws generalizing address with
  | nil => rfl
  | cons w rest ih =>
    rw [linesFrom, List.map_cons, List.cons_append, List.flatMap_cons, wordColumn_line, ih,
      List.flatMap_cons]

/-- The name is taken for no part of the program. -/
theorem read?_text (name : String) (rom : List UInt8) :
    read? (text name rom) = some (padded rom) := by
  have hplain : ∀ l ∈ linesFrom Memory.programStart (words rom), Plain l :=
    fun _ hl => plain_of_mem_linesFrom hl
  have hbody : '=' ∉ '\n' :: (joined (linesFrom Memory.programStart (words rom))).toList := by
    rw [List.mem_cons, not_or]
    exact ⟨by decide, equals_not_mem_joined hplain⟩
  have htext : (text name rom).toList = ("== " ++ name ++ " =").toList ++
      '=' :: '\n' :: (joined (linesFrom Memory.programStart (words rom))).toList := by
    simp [text_eq]
  rw [read?, htext, afterEquals_append _ hbody, List.drop_one, List.tail_cons, splitOn_joined hplain,
    wordColumns_linesFrom, bytes?_words]

/-- A listing has its header and then a line for each word, with its address, its digits and its
mnemonic. The program can be read back from the digits, but for a last byte of zero that an odd
program is given. -/
theorem listing_is_lossless (name : String) (rom : List UInt8) :
    ∃ body : List String,
      text name rom = "== " ++ name ++ " ==\n" ++ joined body ∧
      (∀ l ∈ body, '\n' ∉ l.toList) ∧
      body.length = (rom.length + 1) / 2 ∧
      (∀ n, 2 * n < rom.length →
        body[n]? = some (String.ofList (Hex.padded 3 (0x200 + 2 * n)) ++ "  " ++
          String.ofList (Hex.padded 4 (wordAt rom n).toNat) ++ "  " ++ (wordAt rom n).mnemonic)) ∧
      read? (text name rom) = some (if rom.length % 2 = 0 then rom else rom ++ [0]) := by
  refine ⟨linesFrom Memory.programStart (words rom), text_eq name rom, ?_, ?_, ?_,
    read?_text name rom⟩
  · intro l hl
    exact (plain_of_mem_linesFrom hl).1
  · rw [length_linesFrom, length_words]
  · intro n hn
    rw [getElem?_linesFrom, getElem?_words, if_pos hn, Option.map_some, line, Word.dump_eq_text,
      Hex.text_eq_padded, Hex.text_eq_padded]
    rfl

/-- A program of five bytes under a name that looks like the end of a header and a line. -/
theorem odd_program_under_deceptive_name :
    let name := "a ==\n200  1234  JP 0x234"
    let rom : List UInt8 := [0x00, 0xE0, 0x12, 0x00, 0xA2]
    text name rom = "== a ==\n200  1234  JP 0x234 ==\n" ++
        "200  00E0  CLS\n202  1200  JP 0x200\n204  A200  LD I, 0x200\n" ∧
      read? (text name rom) = some [0x00, 0xE0, 0x12, 0x00, 0xA2, 0x00] := by
  intro name rom
  obtain ⟨body, -, -, -, -, hread⟩ := listing_is_lossless name rom
  exact ⟨by decide +kernel, hread.trans (by decide)⟩

end Chip8.Listing
