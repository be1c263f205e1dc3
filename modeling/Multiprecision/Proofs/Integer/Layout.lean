import Multiprecision.Proofs.Integer.Decimal

/-! Integers laid out in a field are read back, as long as nothing but zeros fills the field. The parts
    stand in the order in which a numeral is read: a sign is taken off first, then the mark that names
    the base, and zeros in front of the other tokens do not change the number; capital letters denote
    what small ones do. -/

namespace Multiprecision

namespace Numeral

variable {b : Base} {ts : List UInt8} {n : Nat}

/-- A zero in front of a numeral does not change the number it denotes. -/
theorem Tokens.zero_cons (zero : IsToken b '0'.toUInt8 0) (h : Tokens b ts n) :
    Tokens b ('0'.toUInt8 :: ts) n := by
  induction h with
  | single token => simpa using (Tokens.single zero).snoc token
  | snoc _ token ih => exact ih.snoc token

theorem Tokens.zeros_append (zero : IsToken b '0'.toUInt8 0) (h : Tokens b ts n) (k : Nat) :
    Tokens b (List.replicate k '0'.toUInt8 ++ ts) n := by
  induction k with
  | zero => exact h
  | succ k ih => exact ih.zero_cons zero

/-- Tokens may be replaced by others of the same values. -/
theorem Tokens.map {g : UInt8 → UInt8} (keeps : ∀ t v, IsToken b t v → IsToken b (g t) v)
    (h : Tokens b ts n) : Tokens b (ts.map g) n := by
  induction h with
  | single token => exact .single (keeps _ _ token)
  | snoc _ token ih =>
    rw [List.map_append]
    exact ih.snoc (keeps _ _ token)

end Numeral

namespace Integer

/-! ### The parts of a layout -/

/-- What stands before the zeros of a layout: the sign and the mark of the base. -/
def Layout.lead (l : Layout) (x : Integer) : List Char :=
  l.signOf x ++ if l.marked then l.style.mark else []

/-- How many characters the field has beside its parts. -/
def Layout.room (l : Layout) (x : Integer) : Nat :=
  l.width - ((l.lead x).length + (x.numeral l.style).length)

/-- The layout without a width. -/
def Layout.unpadded (l : Layout) : Layout := { l with width := 0 }

section Parts

variable (l : Layout) (x : Integer)

theorem layOut_eq :
    x.layOut l =
      if l.zeros then l.lead x ++ List.replicate (l.room x) '0' ++ x.numeral l.style
      else
        List.replicate (l.alignment.before (l.room x)) l.fill ++ l.lead x ++ x.numeral l.style ++
          List.replicate (l.room x - l.alignment.before (l.room x)) l.fill := rfl

theorem Alignment.before_le (a : Alignment) (room : Nat) : a.before room ≤ room := by
  cases a with
  | left => exact Nat.zero_le room
  | center => exact Nat.div_le_self room 2
  | right => exact Nat.le_refl room

/-- A field has its width, or that of its parts where they need more. -/
theorem length_layOut :
    (x.layOut l).length = max l.width ((l.lead x).length + (x.numeral l.style).length) := by
  have before := l.alignment.before_le (l.room x)
  have room : l.room x = l.width - ((l.lead x).length + (x.numeral l.style).length) := rfl
  rw [layOut_eq]
  split <;> simp only [List.length_append, List.length_replicate] <;> omega

theorem length_layOut_unpadded :
    (x.layOut l.unpadded).length = (l.lead x).length + (x.numeral l.style).length := by
  rw [length_layOut]
  exact Nat.zero_max _

variable {l x}

/-- A field that is filled with zeros, or is no wider than its parts, holds nothing but zeros beside
    them. -/
theorem layOut_eq_zeros (fits : l.zeros = true ∨ l.width ≤ (x.layOut l.unpadded).length) :
    x.layOut l = l.lead x ++ List.replicate (l.room x) '0' ++ x.numeral l.style := by
  rw [layOut_eq]
  split
  · rfl
  · next other =>
    have none : l.room x = 0 := by
      rw [length_layOut_unpadded] at fits
      exact Nat.sub_eq_zero_of_le (fits.resolve_left other)
    have before : l.alignment.before 0 = 0 := Nat.le_zero.1 (l.alignment.before_le 0)
    simp only [none, before, Nat.sub_zero, List.replicate_zero, List.nil_append, List.append_nil]

end Parts

/-! ### The bytes of a layout -/

/-- The tokens of the magnitude in a style. -/
def styledTokens (s : Style) (x : Integer) : List UInt8 :=
  if s = .upperHex then (x.magnitudeTokens s.base).map capital else x.magnitudeTokens s.base

theorem numeral_eq (s : Style) (x : Integer) :
    x.numeral s = (x.styledTokens s).map fun t => Char.ofNat t.toNat := rfl

theorem zero_isToken (s : Style) : Numeral.IsToken s.base '0'.toUInt8 0 := by cases s <;> decide

/-- A capital letter denotes what the small one does. -/
theorem value_capital : ∀ t, Alphabet.caseless.value (capital t) = Alphabet.caseless.value t :=
  Alphabet.forall_byte (by decide +kernel)

theorem tokens_styledTokens (s : Style) (x : Integer) :
    Numeral.Tokens s.base (x.styledTokens s) x.magnitude.toNat := by
  have tokens := tokens_magnitudeTokens s.base x
  rw [styledTokens]
  split
  · next upper =>
    subst upper
    refine tokens.map ?_
    intro t v token
    exact ⟨(value_capital t).trans token.1, token.2⟩
  · exact tokens

/-- An ASCII character is the character of its byte. -/
theorem ofNat_toNat_toUInt8 {c : Char} (ascii : c.toNat < 128) : Char.ofNat c.toUInt8.toNat = c := by
  have fits : c.toUInt8.toNat = c.toNat := by
    rw [Char.toUInt8, UInt32.toNat_toUInt8]
    exact Nat.mod_eq_of_lt (Nat.lt_trans ascii (by decide))
  rw [fits, Char.ofNat_toNat]

/-- Whether all characters are ASCII. -/
def ascii (cs : List Char) : Bool := cs.all fun c => c.toNat < 128

theorem ascii_append (cs ds : List Char) : ascii (cs ++ ds) = (ascii cs && ascii ds) := List.all_append

theorem ascii_zeros (k : Nat) : ascii (List.replicate k '0') = true := by
  rw [ascii, List.all_eq_true]
  intro c mem
  rw [List.eq_of_mem_replicate mem]
  rfl

theorem ascii_signOf (l : Layout) (x : Integer) : ascii (l.signOf x) = true := by
  rw [Layout.signOf]
  split
  · rfl
  · split <;> rfl

theorem ascii_mark (s : Style) : ascii s.mark = true := by cases s <;> rfl

/-- ASCII characters before a numeral are bytes before its tokens. -/
theorem ofList_append_numeral {front : List Char} (plain : ascii front = true) (s : Style)
    (x : Integer) :
    String.ofList (front ++ x.numeral s) = ofAscii (front.map Char.toUInt8 ++ x.styledTokens s) := by
  rw [ascii, List.all_eq_true] at plain
  have back : (front.map Char.toUInt8).map (fun t => Char.ofNat t.toNat) = front := by
    rw [List.map_map, List.map_congr_left (g := id), List.map_id]
    intro c mem
    exact ofNat_toNat_toUInt8 (of_decide_eq_true (plain c mem))
  rw [ofAscii, List.map_append, back, numeral_eq]

/-- The sign that a layout shows is one that a numeral may carry. -/
theorem signed_signOf {base : Nat} (signed : base ≤ Base.greatestSigned) {x : Integer} (hx : x.Coherent)
    (l : Layout) {body : List UInt8} (unsigned : Numeral.Unsigned base body x.magnitude.toNat) :
    Numeral.Signed base ((l.signOf x).map Char.toUInt8 ++ body) x.toInt := by
  rw [toInt_eq hx, Layout.signOf]
  split
  · exact .minus signed unsigned
  · split
    · exact .plus signed unsigned
    · exact .bare unsigned

/-- A sign, ASCII characters and a numeral are read as the integer whose magnitude the latter two
    denote together. -/
theorem ofString_parts {base : Nat} (signed : base ≤ Base.greatestSigned) {x : Integer}
    (hx : x.Coherent) (l : Layout) (s : Style) {front : List Char} (plain : ascii front = true)
    (unsigned : Numeral.Unsigned base (front.map Char.toUInt8 ++ x.styledTokens s) x.magnitude.toNat) :
    ofString base (String.ofList (l.signOf x ++ front ++ x.numeral s)) = .ok x := by
  have numeral := signed_signOf signed hx l unsigned
  have plainFront : ascii (l.signOf x ++ front) = true := by
    rw [ascii_append, ascii_signOf, plain, Bool.and_self]
  rw [ofList_append_numeral plainFront, ofString, List.map_append, List.append_assoc,
    utf8_ofAscii numeral.ascii]
  exact parse_eq_ok_iff.2 ⟨hx, numeral⟩

/-! ### Round trips -/

section RoundTrip

variable {x : Integer} {l : Layout}

/-- Where no mark is shown, the text is a numeral of the base of its style. -/
theorem ofString_render_unmarked (hx : x.Coherent)
    (fits : l.zeros = true ∨ l.width ≤ (x.layOut l.unpadded).length) (unmarked : l.marked = false) :
    ofString l.style.base.toNat (x.render l) = .ok x := by
  have tokens := (tokens_styledTokens l.style x).zeros_append (zero_isToken l.style) (l.room x)
  have signed : l.style.base.toNat ≤ Base.greatestSigned := by cases l.style <;> decide
  have lead : l.lead x = l.signOf x := by
    rw [Layout.lead, unmarked]
    exact List.append_nil _
  rw [render, layOut_eq_zeros fits, lead]
  refine ofString_parts signed hx l l.style (ascii_zeros _) ?_
  rw [List.map_replicate]
  exact .inBase tokens

/-- A mark that stands for its base where numerals are read names that base to the reader. -/
theorem unsigned_mark {s : Style} (named : s ∈ [.binary, .lowerHex, .upperHex]) {ts : List UInt8}
    {n : Nat} (tokens : Numeral.Tokens s.base ts n) :
    Numeral.Unsigned 0 (s.mark.map Char.toUInt8 ++ ts) n := by
  simp only [List.mem_cons, List.not_mem_nil, or_false] at named
  rcases named with rfl | rfl | rfl
  · exact .binary (.inl rfl) tokens
  · exact .hexadecimal (.inl rfl) tokens
  · exact .hexadecimal (.inl rfl) tokens

theorem ofString_render_marked (hx : x.Coherent)
    (fits : l.zeros = true ∨ l.width ≤ (x.layOut l.unpadded).length) (marked : l.marked = true)
    (named : l.style ∈ [.binary, .lowerHex, .upperHex]) :
    ofString 0 (x.render l) = .ok x := by
  have tokens := (tokens_styledTokens l.style x).zeros_append (zero_isToken l.style) (l.room x)
  have plain : ascii (l.style.mark ++ List.replicate (l.room x) '0') = true := by
    rw [ascii_append, ascii_mark, ascii_zeros, Bool.and_self]
  have lead : l.lead x = l.signOf x ++ l.style.mark := by
    rw [Layout.lead, if_pos marked]
  rw [render, layOut_eq_zeros fits, lead, List.append_assoc (l.signOf x)]
  refine ofString_parts (by decide) hx l l.style plain ?_
  rw [List.map_append, List.append_assoc, List.map_replicate]
  exact unsigned_mark named tokens

/-- A zero before an octal numeral names its base to the reader. -/
theorem ofString_zero_octal (hx : x.Coherent) (l : Layout) :
    ofString 0 (String.ofList (l.signOf x ++ '0' :: x.numeral .octal)) = .ok x := by
  rw [List.append_cons]
  refine ofString_parts (by decide) hx l .octal rfl ?_
  exact .octal (tokens_styledTokens .octal x)

end RoundTrip

/-- An integer that is laid out with nothing but zeros beside its parts is read back, whatever its sign,
    its width and the sign shown before it: in the base of its style where no mark is shown, and with the
    base found from the text where the mark of base 2 or 16 is. So is its sign, a zero, and its octal
    numeral. The text has the width of the layout, or needs more. -/
theorem laid_out_read_back {x : Integer} (hx : x.Coherent) (l : Layout)
    (fits : l.zeros = true ∨ l.width ≤ (x.layOut l.unpadded).length) :
    (x.layOut l).length = max l.width (x.layOut l.unpadded).length ∧
      (l.marked = false → ofString l.style.base.toNat (x.render l) = .ok x) ∧
      (l.marked = true → l.style ∈ [.binary, .lowerHex, .upperHex] → ofString 0 (x.render l) = .ok x) ∧
      ofString 0 (String.ofList (l.signOf x ++ '0' :: x.numeral .octal)) = .ok x := by
  refine ⟨?_, ofString_render_unmarked hx fits, ofString_render_marked hx fits, ofString_zero_octal hx l⟩
  rw [length_layOut, length_layOut_unpadded]

/-- A negative integer in a field of zeros behind a mark, and a positive one beside a plus in a field
    that it just fills. -/
theorem laid_out_read_back_padded :
    (make .negative (.ofDigits [48879])).render ⟨.upperHex, '*', .left, true, true, true, 12⟩ =
        "-0x00000BEEF" ∧
      ofString 0 "-0x00000BEEF" = .ok (make .negative (.ofDigits [48879])) ∧
      (make .positive (.ofDigits [15])).render ⟨.octal, ' ', .center, true, false, false, 3⟩ = "+17" ∧
      ofString 8 "+17" = .ok (make .positive (.ofDigits [15])) := by
  have padded : (make .negative (.ofDigits [48879])).render ⟨.upperHex, '*', .left, true, true, true, 12⟩ =
      "-0x00000BEEF" := by decide +kernel
  have filled : (make .positive (.ofDigits [15])).render ⟨.octal, ' ', .center, true, false, false, 3⟩ =
      "+17" := by decide +kernel
  obtain ⟨-, -, marked, -⟩ := laid_out_read_back (x := make .negative (.ofDigits [48879])) (by decide)
    ⟨.upperHex, '*', .left, true, true, true, 12⟩ (.inl rfl)
  obtain ⟨-, unmarked, -⟩ := laid_out_read_back (x := make .positive (.ofDigits [15])) (by decide)
    ⟨.octal, ' ', .center, true, false, false, 3⟩ (.inr (by decide +kernel))
  exact ⟨padded, padded ▸ marked rfl (by decide), filled, filled ▸ unmarked rfl⟩

end Integer

end Multiprecision
