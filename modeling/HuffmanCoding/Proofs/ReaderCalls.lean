import HuffmanCoding.Proofs.WordNumbers

/-!
# Calls of a reader

A reader of bytes is opened with a recorded length and then called any number of times, also behind
calls that failed. That a product which does not fit into a word is replaced by the greatest word
makes no difference, since no recorded length is as great (`ByteReader.bitLength_lt_of_ofBytes`,
`ByteReading.run_wordBytes`).

No call moves a reader back or behind the recorded end (`ReaderCall.goesAhead`), so wherever a
sequence of calls leads, the fields there are told exactly (`ByteReader.answersExactly`): a field is
the number that is spelled at its place, and it is refused exactly if it goes on behind the recorded
end, with the reader left where it was. All calls answer as those of a cursor at the same place do
(`ReaderCall.seenThrough_run`).
-/

set_option autoImplicit false
set_option relaxedAutoImplicit false

namespace HuffmanCoding

/-! ### Lengths in words -/

namespace ByteReader

variable {bytes : List UInt8} {bitLength : UInt64} {start : ByteReader}

/-- A reader that was opened stands at the beginning of the bytes, in front of the recorded end. -/
theorem eq_of_ofBytes (h : ofBytes bytes bitLength = .ok start) :
    start.bytes = bytes ∧ start.bitLength = bitLength.toNat ∧ start.position = 0 := by
  unfold ofBytes at h
  dsimp only at h
  split_ifs at h
  cases h
  exact ⟨rfl, rfl, rfl⟩

/-- The recorded length of a reader that was opened is a word that is not the greatest one, since it
is at most a multiple of eight. -/
theorem bitLength_lt_of_ofBytes (h : ofBytes bytes bitLength = .ok start) :
    start.bitLength < UInt64.size - 1 := by
  unfold ofBytes at h
  dsimp only at h
  split_ifs at h with hle
  cases h
  have hproduct : (UInt64.ofNat bytes.length * 8).toNat = bytes.length * 8 % (8 * 2 ^ 61) := by
    rw [UInt64.toNat_mul, UInt64.toNat_ofNat', Nat.mod_mul_mod]
    rfl
  have hwhole := UInt64.le_iff_toNat_le.mp hle
  rw [hproduct] at hwhole
  show bitLength.toNat < 8 * 2 ^ 61 - 1
  omega

/-- Where the number of bits fits into a word, a sequence is opened as a stream is. -/
theorem ofBytes_eq_reader {stream : PackedStream} (hbytes : stream.bytes.length * 8 < UInt64.size)
    (hlength : stream.bitLength < UInt64.size) :
    ofBytes stream.bytes (UInt64.ofNat stream.bitLength) = stream.reader := by
  have hsize : stream.bytes.length < UInt64.size := by omega
  have hlengthWord : (UInt64.ofNat stream.bitLength).toNat = stream.bitLength :=
    UInt64.toNat_ofNat_of_lt' hlength
  have hproduct : (UInt64.ofNat stream.bytes.length * 8).toNat = stream.bytes.length * 8 := by
    rw [UInt64.toNat_mul, UInt64.toNat_ofNat_of_lt' hsize]
    exact Nat.mod_eq_of_lt hbytes
  unfold ofBytes PackedStream.reader
  simp only [UInt64.le_iff_toNat_le, hproduct, hlengthWord]

end ByteReader

namespace ByteReading

variable {reader : ByteReader}

theorem run_bytesWithin (needed size : ℕ) (reader : ByteReader) :
    (Reading.bytesWithin needed size : ByteReading (List UInt8)).run reader =
      if reader.remaining < needed then
        .error (.malformed (.literalPastEnd size) reader.position) reader
      else (Reading.eachByte size : ByteReading (List UInt8)).run reader := by
  show (if reader.remaining < needed then Reading.fail (.literalPastEnd size) reader.position
    else Reading.eachByte size : ByteReading (List UInt8)).run reader = _
  split_ifs <;> rfl

/-- Where the number of bits left is less than the greatest word, or no less than what is asked for,
it makes no difference to ask for the greatest word in place of a larger product. -/
theorem run_wordBytes {size : UInt64}
    (h : reader.remaining < size.toNat * 8 → reader.remaining < UInt64.size - 1) :
    (wordBytes size).run reader =
      (Reading.bytes size.toNat : ByteReading (List UInt8)).run reader := by
  have hsame : reader.remaining < min (size.toNat * 8) (UInt64.size - 1) ↔
      reader.remaining < size.toNat * 8 := by
    rw [Nat.lt_min]
    exact and_iff_left_of_imp h
  rw [wordBytes, Reading.bytes, run_bytesWithin, run_bytesWithin, if_congr hsame rfl rfl]

/-- Where two computations do the same, they do the same with anything behind them. -/
theorem run_bind_congr {α β : Type} {first other : ByteReading α}
    (h : first.run reader = other.run reader) (next : α → ByteReading β) :
    (first >>= next).run reader = (other >>= next).run reader := by
  rw [EStateM.run_bind, EStateM.run_bind, h]

/-- A text whose size is a word is read as it is read without a bound. -/
theorem run_wordText (h : reader.bitLength < UInt64.size - 1) :
    wordText.run reader = (Reading.text : ByteReading String).run reader := by
  show (wordNumber >>= fun size ↦ wordBytes size >>= _).run reader =
    (Reading.number >>= fun size ↦ Reading.bytes size >>= _ : ByteReading String).run reader
  rw [EStateM.run_bind, EStateM.run_bind, run_wordNumber, EStateM.run_bind]
  rcases number_cases reader with ⟨groups, left, hspells, hleft, hrun⟩ | ⟨_, _, _, _, hrun⟩
  · have hshort : left.remaining < UInt64.size - 1 :=
      left.remaining_le.trans_lt (by rwa [hleft.bitLength_eq])
    have hbytes : (wordBytes (UInt64.ofNat (reader.payload groups))).run left =
        (Reading.bytes (reader.payload groups) : ByteReading (List UInt8)).run left := by
      rw [run_wordBytes fun _ ↦ hshort, UInt64.toNat_ofNat_of_lt' hspells.payload_lt]
    rw [hrun]
    exact run_bind_congr hbytes _
  · rw [hrun]

end ByteReading

/-! ### Calls -/

/-- The number of bits of a field that a window of five bytes has room for at each place. -/
abbrev FieldWidth := Fin 33

/-- A call of a reader. -/
inductive ReaderCall where
  | peek (width : FieldWidth)
  | skip (width : FieldWidth)
  | bits (width : FieldWidth)
  | bit
  | number
  | bytes (size : UInt64)
  | character
  | text
  deriving DecidableEq

inductive ReaderAnswer where
  | done
  | field (value : ℕ)
  | bit (value : Bool)
  | number (value : UInt64)
  | bytes (content : List UInt8)
  | character (letter : Char)
  | text (content : String)
  deriving DecidableEq

namespace ReaderCall

/-- What a call does, given how a number, some bytes and a text are read. -/
def perform {m : Type → Type} [Monad m] [BitInput m] (readNumber : m UInt64)
    (readBytes : UInt64 → m (List UInt8)) (readText : m String) : ReaderCall → m ReaderAnswer
  | peek width => do return .field (← Reading.peek width)
  | skip width => do
    Reading.skip width
    return .done
  | bits width => do return .field (← Reading.bits width)
  | bit => do return .bit (← Reading.bit)
  | number => do return .number (← readNumber)
  | bytes size => do return .bytes (← readBytes size)
  | character => do return .character (← Reading.character)
  | text => do return .text (← readText)

def fromBytes : ReaderCall → ByteReading ReaderAnswer :=
  perform ByteReading.wordNumber ByteReading.wordBytes ByteReading.wordText

def read : ReaderCall → Reading ReaderAnswer :=
  perform (do return UInt64.ofNat (← Reading.number)) (fun size ↦ Reading.bytes size.toNat)
    Reading.text

/-- Makes calls one after the other up to one that fails, and notes behind each of them the place
that is reached. -/
def performAll {σ : Type} (perform : ReaderCall → EStateM Error σ ReaderAnswer) (place : σ → ℕ) :
    List ReaderCall → EStateM Error σ (List (ReaderAnswer × ℕ))
  | [] => return []
  | call :: calls => do
    let answer ← perform call
    let mark := place (← get)
    let answers ← performAll perform place calls
    return (answer, mark) :: answers

end ReaderCall

/-- Where a computation ends, whether it fails or not. -/
def ByteReading.endsAt {α : Type} (computation : ByteReading α) (reader : ByteReader) :
    ByteReader :=
  match computation.run reader with
  | .ok _ left => left
  | .error _ left => left

/-- The reader behind some calls, the failing ones included. -/
def ByteReader.after (reader : ByteReader) (calls : List ReaderCall) : ByteReader :=
  calls.foldl (fun here call ↦ call.fromBytes.endsAt here) reader

/-! ### The way ahead -/

/-- The reader stands at the same place in the same bits or further on. -/
def ByteReader.IsAhead (left reader : ByteReader) : Prop :=
  ∃ count, left.IsPast reader count

namespace ByteReader.IsAhead

variable {reader middle left : ByteReader}

theorem refl (reader : ByteReader) : reader.IsAhead reader :=
  ⟨0, isPast_zero⟩

theorem trans (hfirst : middle.IsAhead reader) (hsecond : left.IsAhead middle) :
    left.IsAhead reader := by
  obtain ⟨count, hfirst⟩ := hfirst
  obtain ⟨more, hsecond⟩ := hsecond
  exact ⟨count + more, hfirst.trans hsecond⟩

theorem position_le (h : left.IsAhead reader) : reader.position ≤ left.position := by
  obtain ⟨count, h⟩ := h
  exact h.position_eq ▸ Nat.le_add_right _ _

end ByteReader.IsAhead

/-- Wherever the computation begins, it ends there or further on, whether it fails or not. -/
def ByteReading.GoesAhead {α : Type} (computation : ByteReading α) : Prop :=
  ∀ reader, (computation.endsAt reader).IsAhead reader

namespace ByteReading

variable {α β : Type}

theorem goesAhead_pure (value : α) : (pure value : ByteReading α).GoesAhead :=
  fun reader ↦ .refl reader

theorem goesAhead_fail (fault : StreamFault) (offset : ℕ) :
    (Reading.fail fault offset : ByteReading α).GoesAhead :=
  fun reader ↦ .refl reader

theorem GoesAhead.bind {first : ByteReading α} {next : α → ByteReading β}
    (hfirst : first.GoesAhead) (hnext : ∀ value, (next value).GoesAhead) :
    (first >>= next).GoesAhead := by
  intro reader
  have hmiddle := hfirst reader
  unfold endsAt at hmiddle ⊢
  rw [EStateM.run_bind]
  cases hrun : first.run reader with
  | error error middle =>
    rw [hrun] at hmiddle
    exact hmiddle
  | ok value middle =>
    rw [hrun] at hmiddle
    exact hmiddle.trans (hnext value middle)

theorem goesAhead_position_bind {next : ℕ → ByteReading α}
    (h : ∀ place, (next place).GoesAhead) : (Reading.position >>= next).GoesAhead :=
  fun reader ↦ h reader.position reader

theorem goesAhead_remaining_bind {next : ℕ → ByteReading α}
    (h : ∀ left, (next left).GoesAhead) : (Reading.remaining >>= next).GoesAhead :=
  fun reader ↦ h reader.remaining reader

theorem goesAhead_peek_bind {width : ℕ} {next : ℕ → ByteReading α}
    (h : ∀ value, (next value).GoesAhead) : (Reading.peek width >>= next).GoesAhead :=
  fun reader ↦ h (reader.peek width) reader

theorem goesAhead_skip (width : ℕ) : (Reading.skip width : ByteReading Unit).GoesAhead := by
  intro reader
  unfold endsAt
  rw [run_skip]
  by_cases hshort : reader.bitLength < reader.position + width
  · rw [dif_pos hshort]
    exact .refl reader
  · rw [dif_neg hshort]
    exact ⟨width, ByteReader.isPast_advance _⟩

theorem goesAhead_bits (width : ℕ) : (Reading.bits width : ByteReading ℕ).GoesAhead :=
  goesAhead_peek_bind fun _ ↦ (goesAhead_skip width).bind fun _ ↦ goesAhead_pure _

theorem goesAhead_eachByte (size : ℕ) :
    (Reading.eachByte size : ByteReading (List UInt8)).GoesAhead := by
  induction size with
  | zero => exact goesAhead_pure []
  | succ size ih => exact (goesAhead_bits 8).bind fun _ ↦ ih.bind fun _ ↦ goesAhead_pure _

theorem goesAhead_wordBytes (size : UInt64) : (wordBytes size).GoesAhead := by
  refine goesAhead_position_bind fun _ ↦ goesAhead_remaining_bind fun _ ↦ ?_
  split_ifs
  · exact goesAhead_fail _ _
  · exact goesAhead_eachByte _

theorem goesAhead_wordNumber : wordNumber.GoesAhead := by
  intro reader
  unfold endsAt
  rcases wordNumber_cases reader with ⟨groups, left, _, hleft, hrun⟩ |
    ⟨groups, error, left, hrefuses, hrun⟩
  · rw [hrun]
    exact ⟨_, hleft⟩
  · rw [hrun]
    rcases hrefuses.cut_or_large with ⟨_, _, hleft⟩ | ⟨_, _, _, hleft⟩
    · exact ⟨_, hleft⟩
    · exact ⟨_, hleft⟩

theorem goesAhead_character : (Reading.character : ByteReading Char).GoesAhead := by
  refine goesAhead_position_bind fun start ↦ (goesAhead_bits characterBits).bind fun value ↦ ?_
  by_cases h : value.isValidChar
  · rw [dif_pos h]
    exact goesAhead_pure _
  · rw [dif_neg h]
    exact goesAhead_fail _ _

theorem goesAhead_wordText : wordText.GoesAhead := by
  refine goesAhead_position_bind fun start ↦ goesAhead_wordNumber.bind fun size ↦
    (goesAhead_wordBytes size).bind fun data ↦ ?_
  cases Utf8.decode data with
  | ok content => exact goesAhead_pure content
  | error fault => exact goesAhead_fail _ _

end ByteReading

/-- No call moves a reader back. -/
theorem ReaderCall.goesAhead (call : ReaderCall) : call.fromBytes.GoesAhead := by
  cases call with
  | peek width => exact ByteReading.goesAhead_peek_bind fun _ ↦ ByteReading.goesAhead_pure _
  | skip width => exact (ByteReading.goesAhead_skip _).bind fun _ ↦ ByteReading.goesAhead_pure _
  | bits width => exact (ByteReading.goesAhead_bits _).bind fun _ ↦ ByteReading.goesAhead_pure _
  | bit =>
    exact ((ByteReading.goesAhead_bits 1).bind fun _ ↦ ByteReading.goesAhead_pure _).bind
      fun _ ↦ ByteReading.goesAhead_pure _
  | number => exact ByteReading.goesAhead_wordNumber.bind fun _ ↦ ByteReading.goesAhead_pure _
  | bytes size =>
    exact (ByteReading.goesAhead_wordBytes size).bind fun _ ↦ ByteReading.goesAhead_pure _
  | character => exact ByteReading.goesAhead_character.bind fun _ ↦ ByteReading.goesAhead_pure _
  | text => exact ByteReading.goesAhead_wordText.bind fun _ ↦ ByteReading.goesAhead_pure _

/-- No sequence of calls moves a reader back. -/
theorem ByteReader.isAhead_after (reader : ByteReader) (calls : List ReaderCall) :
    (reader.after calls).IsAhead reader := by
  induction calls generalizing reader with
  | nil => exact .refl reader
  | cons call calls ih => exact (call.goesAhead reader).trans (ih _)

/-! ### Fields told exactly -/

namespace Bits

theorem getElem?_firstBytes {count index : ℕ} (h : index < count) (bits : Bits) :
    (firstBytes count bits)[index]? = some (toByte (bits.drop (8 * index))) := by
  induction count generalizing index bits with
  | zero => exact absurd h (Nat.not_lt_zero index)
  | succ count ih =>
    cases index with
    | zero => rfl
    | succ index =>
      rw [firstBytes, List.getElem?_cons_succ, ih (Nat.lt_of_succ_lt_succ h), List.drop_drop,
        Nat.mul_succ, Nat.add_comm]

end Bits

/-- The value has the `width` bits from a place on as its digits, the first of them highest. -/
structure ByteReader.Shows (reader : ByteReader) (place width value : ℕ) : Prop where
  value_lt : value < 2 ^ width
  digit_eq : ∀ index < width, value.testBit (width - 1 - index) = reader.bitAt (place + index)

theorem ByteReader.shows_numberAt (reader : ByteReader) (place width : ℕ) :
    reader.Shows place width (reader.numberAt place width) :=
  ⟨reader.numberAt_lt place width, fun _ hindex ↦ reader.testBit_numberAt hindex place⟩

namespace ByteReading

variable {α β : Type}

/-- The computation needs `width` bits. Where fewer are left it stays and reports a fault at its
place, and else it yields a right value and passes the bits. -/
structure Needs (computation : ByteReading α) (here : ByteReader) (width : ℕ) (fault : StreamFault)
    (right : α → Prop) : Prop where
  of_short : here.remaining < width →
    computation.run here = .error (.malformed fault here.position) here
  of_room : width ≤ here.remaining →
    ∃ value left, right value ∧ left.IsPast here width ∧ computation.run here = .ok value left

/-- What is made of a value needs no more bits. -/
theorem Needs.map {computation : ByteReading α} {here : ByteReader} {width : ℕ}
    {fault : StreamFault} {right : α → Prop} {rightResult : β → Prop}
    (h : computation.Needs here width fault right) (result : α → β)
    (hresult : ∀ value, right value → rightResult (result value)) :
    (do return result (← computation) : ByteReading β).Needs here width fault rightResult where
  of_short hshort := by rw [EStateM.run_bind, h.of_short hshort]
  of_room hroom := by
    obtain ⟨value, left, hvalue, hleft, hrun⟩ := h.of_room hroom
    refine ⟨result value, left, hresult value hvalue, hleft, ?_⟩
    rw [EStateM.run_bind, hrun]
    rfl

variable (here : ByteReader)

theorem needs_skip (width : ℕ) :
    (Reading.skip width : ByteReading Unit).Needs here width (.fieldPastEnd width)
      fun _ ↦ True where
  of_short hshort := by
    rw [run_skip, dif_pos (by unfold ByteReader.remaining at hshort; omega)]
  of_room hroom := by
    have hfits := here.position_add_le hroom
    refine ⟨(), _, trivial, ByteReader.isPast_advance hfits, ?_⟩
    rw [run_skip, dif_neg (Nat.not_lt_of_le hfits)]

theorem needs_bits {width : ℕ} (h : width ≤ 32) :
    (Reading.bits width : ByteReading ℕ).Needs here width (.fieldPastEnd width)
      (here.Shows here.position width) where
  of_short hshort := run_bits_of_short (by unfold ByteReader.remaining at hshort; omega)
  of_room hroom := by
    have hfits := here.position_add_le hroom
    refine ⟨here.peek width, _, ?_, ByteReader.isPast_advance hfits, run_bits hfits⟩
    rw [here.peek_eq_numberAt h]
    exact here.shows_numberAt _ _

theorem needs_bit :
    (Reading.bit : ByteReading Bool).Needs here 1 (.fieldPastEnd 1) fun value ↦
      value = here.bitAt here.position := by
  refine (needs_bits here (by decide)).map (· == 1) fun value hshows ↦ ?_
  have hdigit := hshows.digit_eq 0 Nat.one_pos
  have hvalue := hshows.value_lt
  rw [Nat.add_zero] at hdigit
  rw [← hdigit]
  obtain rfl | rfl : value = 0 ∨ value = 1 := by omega
  · rfl
  · rfl

theorem needs_wordBytes (h : here.bitLength < UInt64.size - 1) (size : UInt64) :
    (wordBytes size).Needs here (size.toNat * 8) (.literalPastEnd size.toNat) fun content ↦
      content.length = size.toNat ∧ ∀ index byte, content[index]? = some byte →
        here.Shows (here.position + 8 * index) 8 byte.toNat where
  of_short hshort := by
    rw [run_wordBytes fun _ ↦ here.remaining_le.trans_lt h, Reading.bytes, run_bytesWithin,
      if_pos hshort]
  of_room hroom := by
    have hfits := here.position_add_le hroom
    refine ⟨Bits.firstBytes size.toNat here.cursor.upcoming, _,
      ⟨Bits.length_firstBytes _ _, fun index byte hbyte ↦ ?_⟩, ByteReader.isPast_advance hfits, ?_⟩
    · have hindex : index < size.toNat := by
        have hsome := (List.getElem?_eq_some_iff.mp hbyte).1
        rwa [Bits.length_firstBytes] at hsome
      rw [Bits.getElem?_firstBytes hindex] at hbyte
      cases hbyte
      have hspelled : (Bits.toByte (here.cursor.upcoming.drop (8 * index))).toNat =
          here.numberAt (here.position + 8 * index) 8 := by
        rw [Bits.toByte, here.toNat_fit_drop_cursor,
          UInt8.toNat_ofNat_of_lt' (here.numberAt_lt _ 8)]
      rw [hspelled]
      exact here.shows_numberAt _ _
    · rw [run_wordBytes fun _ ↦ here.remaining_le.trans_lt h, Reading.bytes, run_bytesWithin,
        if_neg (Nat.not_lt_of_le hroom), run_eachByte hfits]

end ByteReading

/-- What the reader tells about the fields at its place is right, and it tells it exactly if the
field is there. -/
structure ByteReader.AnswersExactly (here : ByteReader) : Prop where
  peek : ∀ width : FieldWidth, here.Shows here.position width (here.peek width)
  skip : ∀ width : FieldWidth,
    (Reading.skip width : ByteReading Unit).Needs here width (.fieldPastEnd width) fun _ ↦ True
  bits : ∀ width : FieldWidth,
    (Reading.bits width : ByteReading ℕ).Needs here width (.fieldPastEnd width)
      (here.Shows here.position width)
  bit : (Reading.bit : ByteReading Bool).Needs here 1 (.fieldPastEnd 1) fun value ↦
    value = here.bitAt here.position
  bytes : ∀ size : UInt64,
    (ByteReading.wordBytes size).Needs here (size.toNat * 8) (.literalPastEnd size.toNat)
      fun content ↦ content.length = size.toNat ∧ ∀ index byte, content[index]? = some byte →
        here.Shows (here.position + 8 * index) 8 byte.toNat

/-- A reader whose recorded length is a word, but not the greatest one, tells its fields exactly. -/
theorem ByteReader.answersExactly {here : ByteReader} (h : here.bitLength < UInt64.size - 1) :
    here.AnswersExactly where
  peek width := by
    rw [here.peek_eq_numberAt width.is_le]
    exact here.shows_numberAt _ _
  skip width := ByteReading.needs_skip here width
  bits width := ByteReading.needs_bits here width.is_le
  bit := ByteReading.needs_bit here
  bytes size := ByteReading.needs_wordBytes here h size

/-! ### Cursors at the same place -/

/-- What a call yields on bytes, it yields on a cursor at the same place. -/
theorem ReaderCall.seenThrough_run (call : ReaderCall) {here : ByteReader}
    (h : here.bitLength < UInt64.size - 1) :
    seenThrough ByteReader.cursor (call.fromBytes.run here) = call.read.run here.cursor := by
  have hview := ByteReader.isView_cursor
  cases call with
  | peek width => exact (hview.peek _ width.is_le).bind (fun _ ↦ .pure _) here
  | skip width => exact (hview.skip _).bind (fun _ ↦ .pure _) here
  | bits width => exact (hview.bits width.is_le).bind (fun _ ↦ .pure _) here
  | bit => exact ((hview.bits (by decide)).bind fun _ ↦ .pure _).bind (fun _ ↦ .pure _) here
  | number => exact ByteReading.bytewise_wordNumber.bind (fun _ ↦ .pure _) here
  | bytes size =>
    have hbytes : (ByteReading.wordBytes size).run here = _ :=
      ByteReading.run_wordBytes fun _ ↦ here.remaining_le.trans_lt h
    exact (congrArg _ (ByteReading.run_bind_congr hbytes _)).trans
      ((hview.bytesWithin _ _).bind (fun _ ↦ .pure _) here)
  | character => exact hview.character.bind (fun _ ↦ .pure _) here
  | text =>
    exact (congrArg _ (ByteReading.run_bind_congr (ByteReading.run_wordText h) _)).trans
      (hview.text.bind (fun _ ↦ .pure _) here)

/-- Calls that are made one after the other yield and reach on bytes what they do on a cursor at the
same place. -/
theorem ReaderCall.seenThrough_performAll (calls : List ReaderCall) {here : ByteReader}
    (h : here.bitLength < UInt64.size - 1) :
    seenThrough ByteReader.cursor
        ((performAll fromBytes ByteReader.position calls).run here) =
      (performAll read BitCursor.position calls).run here.cursor := by
  induction calls generalizing here with
  | nil => rfl
  | cons call calls ih =>
    obtain ⟨count, hpast⟩ := call.goesAhead here
    have hcall := call.seenThrough_run h
    unfold ByteReading.endsAt at hpast
    rw [performAll, performAll, EStateM.run_bind, EStateM.run_bind, ← hcall]
    cases hrun : call.fromBytes.run here with
    | error error left => rfl
    | ok answer left =>
      rw [hrun] at hpast
      have hleft : left.bitLength < UInt64.size - 1 := hpast.bitLength_eq.trans_lt h
      show seenThrough ByteReader.cursor ((performAll fromBytes ByteReader.position calls >>=
          fun answers ↦ pure ((answer, left.position) :: answers)).run left) =
        (performAll read BitCursor.position calls >>=
          fun answers ↦ pure ((answer, left.position) :: answers)).run left.cursor
      rw [EStateM.run_bind, EStateM.run_bind, ← ih hleft]
      cases (performAll fromBytes ByteReader.position calls).run left <;> rfl

/-! ### Sequences of calls -/

/-- Wherever calls lead from the beginning of a sequence, the reader stands in the same bits, not
behind the recorded end, and further calls do not move it back. There it tells its fields
exactly, and each call does what it does on a cursor at the same place. As long as memory is not
larger than 2^60 bytes, the place and the ends of all fields there fit into words. -/
theorem ByteReader.after_isSafe {bytes : List UInt8} {bitLength : UInt64} {start : ByteReader}
    (h : ofBytes bytes bitLength = .ok start) (calls : List ReaderCall) :
    let here := start.after calls
    here.bytes = bytes ∧ here.bitLength = bitLength.toNat ∧ here.position ≤ bitLength.toNat ∧
      (∀ more, here.position ≤ (start.after (calls ++ more)).position) ∧
      here.AnswersExactly ∧
      (∀ call : ReaderCall,
        seenThrough cursor (call.fromBytes.run here) = call.read.run here.cursor) ∧
      (bytes.length ≤ 2 ^ 60 → ∀ width : FieldWidth, here.position + width < UInt64.size) := by
  intro here
  obtain ⟨hbytes, hlength, _⟩ := eq_of_ofBytes h
  obtain ⟨count, hpast⟩ := start.isAhead_after calls
  have hsame : here.bitLength = bitLength.toNat := hpast.bitLength_eq.trans hlength
  have hshort : here.bitLength < UInt64.size - 1 :=
    hpast.bitLength_eq.trans_lt (bitLength_lt_of_ofBytes h)
  refine ⟨hpast.bytes_eq.trans hbytes, hsame, hsame ▸ here.position_le, fun more ↦ ?_,
    answersExactly hshort, fun call ↦ call.seenThrough_run hshort, fun hmemory width ↦ ?_⟩
  · have hmore : start.after (calls ++ more) = here.after more := List.foldl_append
    rw [hmore]
    exact (here.isAhead_after more).position_le
  · have hwidth : (width : ℕ) ≤ 32 := width.is_le
    have hposition : here.position ≤ bytes.length * 8 :=
      here.position_le.trans (hpast.bytes_eq.trans hbytes ▸ here.bitLength_le)
    show here.position + width < 2 ^ 64
    omega

/-- Of two bytes, twelve bits are recorded. Behind eight of them there is no room for 2^61 bytes,
which make up a number of bits that does not fit into a word, and neither for another byte. -/
theorem ByteReader.after_isSafe_of_twelve_bits :
    ∃ start, ofBytes [0xA5, 0xFF] 12 = .ok start ∧
      let here := start.after [.bits 8, .bytes 0x2000000000000000, .bits 8, .skip 2]
      here.position = 10 ∧ here.peek 4 = 0b1100 ∧ here.Shows here.position 4 (here.peek 4) ∧
        (Reading.bits 4 : ByteReading ℕ).run here =
          .error (.malformed (.fieldPastEnd 4) 10) here := by
  let start : ByteReader := ⟨[0xA5, 0xFF], 12, 0, by decide, by decide⟩
  let calls : List ReaderCall := [.bits 8, .bytes 0x2000000000000000, .bits 8, .skip 2]
  have hstart : ofBytes [0xA5, 0xFF] 12 = .ok start := rfl
  have hposition : (start.after calls).position = 10 := by decide +kernel
  have hvalue : (start.after calls).peek 4 = 0b1100 := by decide +kernel
  obtain ⟨_, _, _, _, hexact, _⟩ := after_isSafe hstart calls
  have hrefused := (hexact.bits 4).of_short (by decide +kernel)
  rw [hposition] at hrefused
  exact ⟨start, hstart, hposition, hvalue, hexact.peek 4, hrefused⟩

end HuffmanCoding
