import Chip8.Machine.Execute
import Chip8.Proofs.Instruction.Form
import Chip8.Proofs.Instruction.Mnemonic

namespace Chip8

namespace Hex

theorem size_byte (b : UInt8) : size b.toNat ≤ 2 := by
  have hlt := b.toNat_lt
  exact size_le_succ (Nat.le_of_eq (size_of_lt (by omega)))

theorem size_address (a : Address) : size a.val ≤ 3 := by
  have hlt := a.isLt
  exact size_le_succ (size_le_succ (Nat.le_of_eq (size_of_lt (by omega))))

end Hex

/-- What stands behind the name of an instruction. -/
inductive Operand
  | register (r : Register)
  | byte (b : UInt8)
  | address (a : Address)
  | rows (n : Nibble)
  | index
  /-- The memory that the index points at. -/
  | indexed
  | delay
  | sound
  | key
  | digit
  | decimal
  deriving DecidableEq, Repr

namespace Operand

def text : Operand → String
  | register r => Register.text r
  | byte b => Instruction.byteText b
  | address a => Instruction.addressText a
  | rows n => toString n.val
  | index => "I"
  | indexed => "[I]"
  | delay => "DT"
  | sound => "ST"
  | key => "K"
  | digit => "F"
  | decimal => "B"

/-- Two digits are a byte, any other number of them is an address. -/
def ofDigits? (digits : List Char) : Option Operand :=
  (Hex.number? digits).map fun n =>
    if digits.length = 2 then byte (UInt8.ofNat n) else address (Fin.ofNat 4096 n)

def rows? (cs : List Char) : Option Operand :=
  ((List.finRange 16).find? fun n => (toString n.val).toList == cs).map rows

def ofChars? : List Char → Option Operand
  | ['I'] => some index
  | ['[', 'I', ']'] => some indexed
  | ['D', 'T'] => some delay
  | ['S', 'T'] => some sound
  | ['K'] => some key
  | ['F'] => some digit
  | ['B'] => some decimal
  | ['V', c] => (Hex.value? c).map fun n => register (Fin.ofNat 16 n)
  | '0' :: 'x' :: digits => ofDigits? digits
  | cs => rows? cs

theorem ofChars?_register (r : Register) :
    ofChars? (Register.text r).toList = some (register r) := by
  revert r
  decide

theorem ofChars?_byte (b : UInt8) : ofChars? (Instruction.byteText b).toList = some (byte b) := by
  have hread : ofDigits? (Hex.digits 2 b.toNat) = some (byte b) := by
    rw [ofDigits?, Hex.number?_digits (Hex.size_byte b), Option.map_some,
      if_pos (Hex.length_digits (Hex.size_byte b)), UInt8.ofNat_toNat]
  simpa [Instruction.byteText, Hex.literal, Hex.text, ofChars?] using hread

theorem ofChars?_address (a : Address) :
    ofChars? (Instruction.addressText a).toList = some (address a) := by
  have hlength : (Hex.digits 3 a.val).length ≠ 2 := by
    rw [Hex.length_digits (Hex.size_address a)]
    decide
  have hread : ofDigits? (Hex.digits 3 a.val) = some (address a) := by
    rw [ofDigits?, Hex.number?_digits (Hex.size_address a), Option.map_some, if_neg hlength,
      Fin.ofNat_val_eq_self]
  simpa [Instruction.addressText, Hex.literal, Hex.text, ofChars?] using hread

theorem ofChars?_rows (n : Nibble) : ofChars? (toString n.val).toList = some (rows n) := by
  revert n
  decide

theorem ofChars?_text (o : Operand) : ofChars? o.text.toList = some o := by
  cases o with
  | register r => exact ofChars?_register r
  | byte b => exact ofChars?_byte b
  | address a => exact ofChars?_address a
  | rows n => exact ofChars?_rows n
  | _ => rfl

end Operand

namespace Instruction

def name : Instruction → String
  | .clearScreen => "CLS"
  | .ret => "RET"
  | .jump _ | .jumpFromV0 _ => "JP"
  | .call _ => "CALL"
  | .skip (.byteIs ..) | .skip (.equal ..) => "SE"
  | .skip (.byteIsNot ..) | .skip (.different ..) => "SNE"
  | .skip (.keyHeld _) => "SKP"
  | .skip (.keyFree _) => "SKNP"
  | .addByte .. | .addToIndex _ => "ADD"
  | .arithmetic operation _ _ => operation.name
  | .random .. => "RND"
  | .draw .. => "DRW"
  | _ => "LD"

def operands : Instruction → List Operand
  | .clearScreen | .ret => []
  | .jump a | .call a => [.address a]
  | .skip (.byteIs x b) | .skip (.byteIsNot x b) => [.register x, .byte b]
  | .skip (.equal x y) | .skip (.different x y) => [.register x, .register y]
  | .skip (.keyHeld x) | .skip (.keyFree x) => [.register x]
  | .setByte x b | .addByte x b | .random x b => [.register x, .byte b]
  | .arithmetic _ x y => [.register x, .register y]
  | .setIndex a => [.index, .address a]
  | .jumpFromV0 a => [.register 0, .address a]
  | .draw x y n => [.register x, .register y, .rows n]
  | .readDelay x => [.register x, .delay]
  | .waitForKey x => [.register x, .key]
  | .setDelay x => [.delay, .register x]
  | .setSound x => [.sound, .register x]
  | .addToIndex x => [.index, .register x]
  | .pointAtDigit x => [.digit, .register x]
  | .storeDecimal x => [.decimal, .register x]
  | .storeRegisters x => [.indexed, .register x]
  | .loadRegisters x => [.register x, .indexed]

/-- The operands of a name tell which of its instructions is meant. -/
def ofParts? : String → List Operand → Option Instruction
  | "CLS", [] => some .clearScreen
  | "RET", [] => some .ret
  | "JP", [.address a] => some (.jump a)
  | "JP", [.register 0, .address a] => some (.jumpFromV0 a)
  | "CALL", [.address a] => some (.call a)
  | "SE", [.register x, .byte b] => some (.skip (.byteIs x b))
  | "SE", [.register x, .register y] => some (.skip (.equal x y))
  | "SNE", [.register x, .byte b] => some (.skip (.byteIsNot x b))
  | "SNE", [.register x, .register y] => some (.skip (.different x y))
  | "SKP", [.register x] => some (.skip (.keyHeld x))
  | "SKNP", [.register x] => some (.skip (.keyFree x))
  | "LD", [.register x, .byte b] => some (.setByte x b)
  | "LD", [.register x, .register y] => some (.arithmetic .copy x y)
  | "LD", [.index, .address a] => some (.setIndex a)
  | "LD", [.register x, .delay] => some (.readDelay x)
  | "LD", [.register x, .key] => some (.waitForKey x)
  | "LD", [.delay, .register x] => some (.setDelay x)
  | "LD", [.sound, .register x] => some (.setSound x)
  | "LD", [.digit, .register x] => some (.pointAtDigit x)
  | "LD", [.decimal, .register x] => some (.storeDecimal x)
  | "LD", [.indexed, .register x] => some (.storeRegisters x)
  | "LD", [.register x, .indexed] => some (.loadRegisters x)
  | "ADD", [.register x, .byte b] => some (.addByte x b)
  | "ADD", [.register x, .register y] => some (.arithmetic .add x y)
  | "ADD", [.index, .register x] => some (.addToIndex x)
  | "OR", [.register x, .register y] => some (.arithmetic .or x y)
  | "AND", [.register x, .register y] => some (.arithmetic .and x y)
  | "XOR", [.register x, .register y] => some (.arithmetic .xor x y)
  | "SUB", [.register x, .register y] => some (.arithmetic .subtract x y)
  | "SUBN", [.register x, .register y] => some (.arithmetic .subtractFrom x y)
  | "SHR", [.register x, .register y] => some (.arithmetic .shiftRight x y)
  | "SHL", [.register x, .register y] => some (.arithmetic .shiftLeft x y)
  | "RND", [.register x, .byte b] => some (.random x b)
  | "DRW", [.register x, .register y, .rows n] => some (.draw x y n)
  | _, _ => none

theorem ofParts?_name_operands (i : Instruction) : ofParts? i.name i.operands = some i := by
  cases i with
  | skip condition => cases condition <;> rfl
  | arithmetic operation x y => cases operation <;> rfl
  | _ => rfl

end Instruction

/-- The words of a text, which blanks divide. Commas do not count. -/
def wordsOf (cs : List Char) : List (List Char) := (cs.filter (· != ',')).splitOn ' '

/-- One word: nothing in it divides it or is left out. -/
def OneWord (s : String) : Prop := ' ' ∉ s.toList ∧ ',' ∉ s.toList

instance (s : String) : Decidable (OneWord s) := inferInstanceAs (Decidable (_ ∧ _))

namespace OneWord

variable {s : String}

theorem filter (h : OneWord s) : s.toList.filter (· != ',') = s.toList := by
  rw [List.filter_eq_self]
  rintro c hc
  rw [bne_iff_ne]
  rintro rfl
  exact h.2 hc

theorem ne_blank (h : OneWord s) : ∀ c ∈ s.toList, (c == ' ') = false := by
  rintro c hc
  rw [beq_eq_false_iff_ne]
  rintro rfl
  exact h.1 hc

theorem wordsOf (h : OneWord s) : wordsOf s.toList = [s.toList] := by
  rw [Chip8.wordsOf, h.filter, List.splitOn_eq_splitOnP, List.splitOnP_eq_singleton h.ne_blank]

theorem wordsOf_append (h : OneWord s) (rest : List Char) :
    Chip8.wordsOf (s.toList ++ ' ' :: rest) = s.toList :: Chip8.wordsOf rest := by
  have hblank : (' ' :: rest).filter (· != ',') = ' ' :: rest.filter (· != ',') := rfl
  rw [Chip8.wordsOf, List.filter_append, h.filter, hblank, List.splitOn_eq_splitOnP,
    List.splitOnP_append_cons_of_forall_mem h.ne_blank ' ' rfl]
  rfl

theorem wordsOf_comma (h : OneWord s) (rest : List Char) :
    Chip8.wordsOf (s.toList ++ ',' :: ' ' :: rest) = s.toList :: Chip8.wordsOf rest := by
  rw [← h.wordsOf_append rest]
  simp only [Chip8.wordsOf, List.filter_append]
  rfl

end OneWord

theorem Hex.oneWord_text (width n : Nat) : OneWord (Hex.text width n) := by
  have hall : ∀ d : Fin 16, Hex.digit d.val ≠ ' ' ∧ Hex.digit d.val ≠ ',' := by decide
  simp only [OneWord, Hex.text, String.toList_ofList]
  constructor
  · intro h
    obtain ⟨d, hd⟩ := Hex.mem_lastDigits h
    exact (hall d).1 hd.symm
  · intro h
    obtain ⟨d, hd⟩ := Hex.mem_lastDigits h
    exact (hall d).2 hd.symm

theorem oneWord_append {s t : String} (hs : OneWord s) (ht : OneWord t) : OneWord (s ++ t) := by
  simp only [OneWord, String.toList_append, List.mem_append, not_or]
  exact ⟨⟨hs.1, ht.1⟩, hs.2, ht.2⟩

namespace Operand

theorem oneWord_text (o : Operand) : OneWord o.text := by
  cases o with
  | register r => exact oneWord_append (by decide) (Hex.oneWord_text ..)
  | byte b => exact oneWord_append (by decide) (Hex.oneWord_text ..)
  | address a => exact oneWord_append (by decide) (Hex.oneWord_text ..)
  | rows n =>
    revert n
    decide
  | _ => decide

/-- Operands are set apart by commas. -/
def listText : List Operand → String
  | [] => ""
  | [o] => o.text
  | o :: rest => o.text ++ ", " ++ listText rest

theorem wordsOf_listText {os : List Operand} (h : os ≠ []) :
    wordsOf (listText os).toList = os.map (·.text.toList) := by
  induction os using listText.induct with
  | case1 => exact absurd rfl h
  | case2 o => exact o.oneWord_text.wordsOf
  | case3 o rest hrest ih =>
    have htext : (listText (o :: rest)).toList =
        o.text.toList ++ ',' :: ' ' :: (listText rest).toList := by
      rw [listText.eq_3 _ _ hrest]
      simp
    rw [htext, o.oneWord_text.wordsOf_comma, ih (fun hnil => hrest hnil), List.map_cons]

end Operand

theorem Arithmetic.oneWord_name (operation : Arithmetic) : OneWord operation.name := by
  cases operation <;> decide

namespace Instruction

theorem oneWord_name (i : Instruction) : OneWord i.name := by
  cases i with
  | skip condition => cases condition <;> (simp only [name]; decide)
  | arithmetic operation x y => exact operation.oneWord_name
  | _ => simp only [name]; decide

/-- A name, and behind a blank its operands. -/
theorem mnemonic_eq (i : Instruction) :
    i.mnemonic.toList = if i.operands = [] then i.name.toList
      else i.name.toList ++ ' ' :: (Operand.listText i.operands).toList := by
  have hzero : (Register.text 0).toList = ['V', '0'] := by decide
  cases i with
  | skip condition =>
    cases condition <;> simp [mnemonic, name, operands, Operand.listText, Operand.text]
  | _ => simp [mnemonic, name, operands, Operand.listText, Operand.text, hzero]

/-- The words of a mnemonic are its name and its operands. -/
theorem wordsOf_mnemonic (i : Instruction) :
    wordsOf i.mnemonic.toList = i.name.toList :: i.operands.map (·.text.toList) := by
  rw [mnemonic_eq]
  split
  · rename_i hnone
    rw [hnone, i.oneWord_name.wordsOf, List.map_nil]
  · rename_i hsome
    rw [i.oneWord_name.wordsOf_append, Operand.wordsOf_listText hsome]

/-- Reads a mnemonic. -/
def read? (s : String) : Option Instruction :=
  match wordsOf s.toList with
  | [] => none
  | name :: operands => do ofParts? (String.ofList name) (← operands.mapM Operand.ofChars?)

theorem mapM_ofChars?_text (os : List Operand) :
    (os.map (·.text.toList)).mapM Operand.ofChars? = some os := by
  induction os with
  | nil => rfl
  | cons o rest ih => simp [Operand.ofChars?_text, ih]

theorem read?_mnemonic (i : Instruction) : read? i.mnemonic = some i := by
  simp only [read?, wordsOf_mnemonic, mapM_ofChars?_text, String.ofList_toList]
  exact ofParts?_name_operands i

end Instruction

namespace Word

variable {v w : Word} {i : Instruction}

/-- What a mnemonic is read as is what its word was decoded to. -/
theorem read?_mnemonic (w : Word) : Instruction.read? w.mnemonic = Instruction.decode? w := by
  unfold mnemonic
  cases Instruction.decode? w with
  | some i => exact i.read?_mnemonic
  | none => rfl

theorem eq_of_digits (hkind : v.kind = w.kind) (hx : v.x = w.x) (hy : v.y = w.y)
    (hn : v.n = w.n) : v = w := by
  simp only [kind, x, y, n, Fin.mk.injEq] at hkind hx hy hn
  rw [← UInt16.toNat_inj]
  omega

theorem eq_of_kk (hkind : v.kind = w.kind) (hx : v.x = w.x) (hkk : v.kk = w.kk) : v = w := by
  have hlow := congrArg UInt8.toNat hkk
  simp only [kk, UInt16.toNat_toUInt8] at hlow
  simp only [kind, x, Fin.mk.injEq] at hkind hx
  rw [← UInt16.toNat_inj]
  omega

theorem eq_of_nnn (hkind : v.kind = w.kind) (hnnn : v.nnn = w.nnn) : v = w := by
  simp only [kind, nnn, Fin.mk.injEq] at hkind hnnn
  rw [← UInt16.toNat_inj]
  omega

/-- A word that asks for the same instruction has the same digits, unless a digit is free. -/
theorem eq_of_standsFor (hv : v.StandsFor i) (hw : w.StandsFor i) (hclear : i ≠ .clearScreen)
    (hret : i ≠ .ret) : v = w := by
  cases i with
  | clearScreen => exact absurd rfl hclear
  | ret => exact absurd rfl hret
  | jump target | call target | setIndex target | jumpFromV0 target =>
    exact eq_of_nnn (hv.1.trans hw.1.symm) (hv.2.trans hw.2.symm)
  | skip condition =>
    cases condition with
    | byteIs x byte | byteIsNot x byte =>
      exact eq_of_kk (hv.1.trans hw.1.symm) (hv.2.1.trans hw.2.1.symm) (hv.2.2.trans hw.2.2.symm)
    | equal x y | different x y =>
      exact eq_of_digits (hv.1.trans hw.1.symm) (hv.2.2.1.trans hw.2.2.1.symm)
        (hv.2.2.2.trans hw.2.2.2.symm) (hv.2.1.trans hw.2.1.symm)
    | keyHeld x | keyFree x =>
      exact eq_of_kk (hv.1.trans hw.1.symm) (hv.2.2.trans hw.2.2.symm) (hv.2.1.trans hw.2.1.symm)
  | setByte x byte | addByte x byte | random x byte =>
    exact eq_of_kk (hv.1.trans hw.1.symm) (hv.2.1.trans hw.2.1.symm) (hv.2.2.trans hw.2.2.symm)
  | arithmetic operation x y =>
    exact eq_of_digits (hv.1.trans hw.1.symm) (hv.2.2.1.trans hw.2.2.1.symm)
      (hv.2.2.2.trans hw.2.2.2.symm) (hv.2.1.trans hw.2.1.symm)
  | draw x y rows =>
    exact eq_of_digits (hv.1.trans hw.1.symm) (hv.2.1.trans hw.2.1.symm)
      (hv.2.2.1.trans hw.2.2.1.symm) (hv.2.2.2.trans hw.2.2.2.symm)
  | _ =>
    exact eq_of_kk (hv.1.trans hw.1.symm) (hv.2.2.trans hw.2.2.symm) (hv.2.1.trans hw.2.1.symm)

theorem decode?_eq_of_mnemonic_eq (h : v.mnemonic = w.mnemonic) :
    Instruction.decode? v = Instruction.decode? w := by
  rw [← v.read?_mnemonic, ← w.read?_mnemonic, h]

/-- Words with one mnemonic do the same wherever they are executed, and they are the same word
unless the mnemonic is that of an instruction without operands or of no instruction at all. -/
theorem mnemonics_are_faithful (h : v.mnemonic = w.mnemonic) :
    (∀ (dialect : Dialect) (m : Machine) (d : Devices),
      m.executeWord dialect d v = m.executeWord dialect d w) ∧
      (v.mnemonic ∉ ["CLS", "RET", "???"] → v = w) := by
  have hdecode := decode?_eq_of_mnemonic_eq h
  constructor
  · intro dialect m d
    simp only [Machine.executeWord, hdecode]
  · intro hoperands
    cases hv : Instruction.decode? v with
    | none =>
      refine absurd ?_ hoperands
      rw [mnemonic, hv]
      decide
    | some i =>
      have hw := hdecode.symm.trans hv
      have hmnemonic : v.mnemonic = i.mnemonic := by rw [mnemonic, hv]
      rw [hmnemonic] at hoperands
      refine eq_of_standsFor (Instruction.standsFor_of_decode? hv)
        (Instruction.standsFor_of_decode? hw) ?_ ?_
      · rintro rfl
        exact hoperands (by decide)
      · rintro rfl
        exact hoperands (by decide)

/-- The middle digit of the words that clear the screen is free. -/
theorem clearing_words_do_the_same :
    (0x00E0 : Word).mnemonic = (0x0AE0 : Word).mnemonic ∧ (0x00E0 : Word) ≠ 0x0AE0 ∧
      ∀ (dialect : Dialect) (m : Machine) (d : Devices),
        m.executeWord dialect d 0x00E0 = m.executeWord dialect d 0x0AE0 := by
  have hsame : (0x00E0 : Word).mnemonic = (0x0AE0 : Word).mnemonic := by decide
  exact ⟨hsame, by decide, (mnemonics_are_faithful hsame).1⟩

end Word

end Chip8
