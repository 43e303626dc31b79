import HuffmanCoding.Proofs.Accounting
import HuffmanCoding.Proofs.IntoBytes
import HuffmanCoding.Proofs.ReaderCalls

/-!
# Scripts of fields

A script is a sequence of fields of all kinds: numbers of a fixed and of a variable size, single
bits, bytes and literals. They are written one after the other through the buffer of one writer, and
read back one after the other from five bytes at a time, so each field may begin anywhere in a byte.

A field is written as its own bits behind whatever was written before (`StreamField.writes`), and it
is read back wherever these bits come next (`StreamField.gives`). So a script is read back from
the bytes that were written for it, and after each field reader and writer have counted the same
number of bits (`StreamField.script_readsBack`).
-/

set_option autoImplicit false
set_option relaxedAutoImplicit false

namespace HuffmanCoding

/-! ### Writing numbers from words -/

namespace ByteWriting

/-- The mark of a group is the digit above its seven digits. -/
theorem toNat_mark {group : UInt64} (h : group.toNat < 128) :
    (group ||| 0x80).toNat = group.toNat + 128 := by
  have hroom : group.toNat + (1 : UInt64).toNat <<< 7 < UInt64.size :=
    (Nat.add_lt_add_right h _).trans (by decide)
  have hplace : (0x80 : UInt64) = 1 <<< UInt64.ofNat 7 := rfl
  rw [hplace, ByteReading.toNat_takeUp (by decide) h hroom]
  rfl

/-- A number is written from a word as it is written without a bound. -/
theorem wordNumber_eq (value : UInt64) : wordNumber value = number value.toNat := by
  have hdigits (value : UInt64) : (value &&& 0x7F).toNat = value.toNat % 128 := by
    have hsame := ByteReading.toNat_digits value.toNat
    rwa [UInt64.ofNat_toNat] at hsame
  fun_induction wordNumber value with
  | case1 value group rest hrest =>
    have hsmall := shiftRight_seven_eq_zero_iff.mp hrest
    rw [number, if_pos hsmall, hdigits, Nat.mod_eq_of_lt hsmall]
  | case2 value group rest hrest ih =>
    have hgroup : group.toNat < 128 := by
      rw [hdigits]
      exact Nat.mod_lt _ (by decide)
    rw [number, if_neg (mt shiftRight_seven_eq_zero_iff.mpr hrest), ih, toNat_mark hgroup, hdigits,
      toNat_shiftRight_seven]

theorem writes_wordNumber (value : UInt64) :
    (wordNumber value).Writes (.ok (Bits.ofNumber value.toNat, ())) := by
  rw [wordNumber_eq]
  exact writes_number value.toNat

theorem writes_wordText {content : String} (h : IsStorable content) :
    (wordText content).Writes (.ok (textLiteral content, ())) := by
  have hsize : (UInt64.ofNat (Utf8.encode content).length).toNat = (Utf8.encode content).length :=
    UInt64.toNat_ofNat_of_lt' (by rwa [Utf8.length_encode])
  have hnumber := writes_wordNumber (UInt64.ofNat (Utf8.encode content).length)
  rw [hsize] at hnumber
  exact hnumber.andThen (writes_bytes _)

end ByteWriting

/-! ### Computations that give values back -/

namespace ByteReading

variable {α β : Type}

/-- Wherever the bits come next, the computation yields the value and passes exactly the bits. -/
def Gives (computation : ByteReading α) (bits : Bits) (value : α) : Prop :=
  ∀ (reader : ByteReader) (rest : Bits), reader.cursor.upcoming = bits ++ rest →
    ∃ left, computation.run reader = .ok value left ∧ left.IsPast reader bits.length

theorem gives_pure (value : α) : (pure value : ByteReading α).Gives [] value :=
  fun reader _ _ ↦ ⟨reader, rfl, ByteReader.isPast_zero⟩

/-- Two computations one after the other give their values for the bits one after the other. -/
theorem Gives.bind {first : ByteReading α} {next : α → ByteReading β} {bits more : Bits} {value : α}
    {result : β} (hfirst : first.Gives bits value) (hnext : (next value).Gives more result) :
    (first >>= next).Gives (bits ++ more) result := by
  intro reader rest hreader
  rw [List.append_assoc] at hreader
  obtain ⟨middle, hrun, hmiddle⟩ := hfirst reader _ hreader
  have hmore : middle.cursor.upcoming = more ++ rest := by
    rw [hmiddle.cursor_eq]
    exact BitCursor.upcoming_drop hreader
  obtain ⟨left, hrest, hleft⟩ := hnext middle rest hmore
  refine ⟨left, ?_, ?_⟩
  · rw [EStateM.run_bind, hrun]
    exact hrest
  · rw [List.length_append]
    exact hmiddle.trans hleft

/-- The last computation may pass nothing. -/
theorem Gives.finish {first : ByteReading α} {next : α → ByteReading β} {bits : Bits} {value : α}
    {result : β} (hfirst : first.Gives bits value) (hnext : (next value).Gives [] result) :
    (first >>= next).Gives bits result := by
  have hbind := hfirst.bind hnext
  rwa [List.append_nil] at hbind

/-- What a cursor at the same place gives back, a computation gives back that goes ahead. -/
theorem gives_of_bytewise {fromBytes : ByteReading α} {read : Reading α} {bits : Bits} {value : α}
    (hread : read.Gives bits value) (hsame : fromBytes.Bytewise read)
    (hahead : fromBytes.GoesAhead) : fromBytes.Gives bits value := by
  intro reader rest hreader
  have hseen := hsame reader
  rw [hread reader.cursor rest hreader] at hseen
  obtain ⟨count, hpast⟩ := hahead reader
  unfold endsAt at hpast
  cases hrun : fromBytes.run reader with
  | error error left =>
    rw [hrun] at hseen
    cases hseen
  | ok found left =>
    rw [hrun] at hseen hpast
    obtain ⟨rfl, hcursor⟩ := EStateM.Result.ok.inj hseen
    have hposition : left.position = reader.position + bits.length := by
      have hmoved := congrArg BitCursor.position hcursor
      have hroom := BitCursor.le_remaining hreader
      rwa [BitCursor.drop, Nat.min_eq_left hroom] at hmoved
    have hcount : count = bits.length :=
      Nat.add_left_cancel (hpast.position_eq.symm.trans hposition)
    exact ⟨left, rfl, hcount ▸ hpast⟩

/-- A number that fits into a field is read back. -/
theorem gives_ofNat {width value : ℕ} (hwidth : width ≤ 32) (h : value < 2 ^ width) :
    Gives (Reading.bits width) (Bits.ofNat width value) value :=
  gives_of_bytewise (Reading.gives_ofNat h) (ByteReader.isView_cursor.bits hwidth)
    (goesAhead_bits width)

theorem gives_bit (value : Bool) : Gives Reading.bit [value] value := by
  have hfield : Gives (Reading.bits 1) [value] value.toNat := by
    have hgives : Gives (Reading.bits 1) (Bits.ofNat 1 value.toNat) value.toNat :=
      gives_ofNat (by decide) value.toNat_lt
    cases value <;> exact hgives
  refine hfield.finish ?_
  cases value <;> exact gives_pure _

theorem gives_wordNumber (value : UInt64) :
    wordNumber.Gives (Bits.ofNumber value.toNat) value := by
  have hread : Reading.Gives (do return UInt64.ofNat (← Reading.number))
      (Bits.ofNumber value.toNat) (UInt64.ofNat value.toNat) :=
    (Reading.gives_number value.toNat_lt).finish (Reading.gives_pure _)
  rw [UInt64.ofNat_toNat] at hread
  exact gives_of_bytewise hread bytewise_wordNumber goesAhead_wordNumber

theorem gives_wordBytes {content : List UInt8} (h : content.length < UInt64.size) :
    (wordBytes (UInt64.ofNat content.length)).Gives (Bits.ofBytes content) content := by
  refine gives_of_bytewise ?_ (ByteReader.isView_cursor.bytesWithin _ _) (goesAhead_wordBytes _)
  rw [UInt64.toNat_ofNat_of_lt' h]
  exact Reading.gives_bytesWithin (Nat.min_le_left _ _)

theorem gives_character (letter : Char) :
    Gives Reading.character (Bits.ofNat characterBits letter.toNat) letter :=
  gives_of_bytewise (Reading.gives_character letter) ByteReader.isView_cursor.character
    goesAhead_character

theorem gives_position_bind {next : ℕ → ByteReading α} {bits : Bits} {value : α}
    (h : ∀ place, (next place).Gives bits value) : (Reading.position >>= next).Gives bits value :=
  fun reader rest hreader ↦ h reader.position reader rest hreader

theorem gives_wordText {content : String} (h : IsStorable content) :
    wordText.Gives (textLiteral content) content := by
  have hsize : (Utf8.encode content).length < UInt64.size := by rwa [Utf8.length_encode]
  have hnumber := gives_wordNumber (UInt64.ofNat (Utf8.encode content).length)
  rw [UInt64.toNat_ofNat_of_lt' hsize] at hnumber
  refine gives_position_bind fun _ ↦ hnumber.bind ((gives_wordBytes hsize).finish ?_)
  rw [Utf8.decode_encode]
  exact gives_pure content

end ByteReading

/-! ### Fields -/

/-- A field of a script. -/
inductive StreamField where
  | bits (width : FieldWidth) (value : UInt32)
  | bit (value : Bool)
  | number (value : UInt64)
  | bytes (content : List UInt8) (h : content.length < UInt64.size)
  | character (letter : Char)
  | text (content : String) (h : IsStorable content)

namespace StreamField

open ReaderCall (performAll fromBytes)

def write : StreamField → ByteWriting Unit
  | bits width value => ByteWriting.put width value.toNat
  | bit value => ByteWriting.put 1 value.toNat
  | number value => ByteWriting.wordNumber value
  | bytes content _ => ByteWriting.bytes content
  | character letter => ByteWriting.character letter
  | text content _ => ByteWriting.wordText content

def call : StreamField → ReaderCall
  | bits width _ => .bits width
  | bit _ => .bit
  | number _ => .number
  | bytes content _ => .bytes (UInt64.ofNat content.length)
  | character _ => .character
  | text _ _ => .text

def spelled : StreamField → Bits
  | bits width value => Bits.ofNat width value.toNat
  | bit value => [value]
  | number value => Bits.ofNumber value.toNat
  | bytes content _ => Bits.ofBytes content
  | character letter => Bits.ofNat characterBits letter.toNat
  | text content _ => textLiteral content

def size : StreamField → ℕ
  | bits width _ => width
  | bit _ => 1
  | number value => Bits.numberSize value.toNat
  | bytes content _ => content.length * 8
  | character _ => characterBits
  | text content _ => textLiteralSize content

def answer : StreamField → ReaderAnswer
  | bits width value => .field (value.toNat % 2 ^ width.val)
  | bit value => .bit value
  | number value => .number value
  | bytes content _ => .bytes content
  | character letter => .character letter
  | text content _ => .text content

theorem length_spelled (field : StreamField) : field.spelled.length = field.size := by
  cases field with
  | bits width value => exact Bits.length_ofNat _ _
  | bit value => rfl
  | number value => exact Bits.length_ofNumber _
  | bytes content h => exact Bits.length_ofBytes content
  | character letter => exact Bits.length_ofNat _ _
  | text content h => exact length_textLiteral content

/-- A field is written as its bits. -/
theorem writes (field : StreamField) : field.write.Writes (.ok (field.spelled, ())) := by
  cases field with
  | bits width value => exact ByteWriting.writes_put width.is_le value.toNat
  | bit value =>
    have hwrites : (ByteWriting.put 1 value.toNat).Writes (.ok (Bits.ofNat 1 value.toNat, ())) :=
      ByteWriting.writes_put (by decide) value.toNat
    cases value <;> exact hwrites
  | number value => exact ByteWriting.writes_wordNumber value
  | bytes content h => exact ByteWriting.writes_bytes content
  | character letter => exact ByteWriting.writes_put (by decide) letter.toNat
  | text content h => exact ByteWriting.writes_wordText h

/-- A field is read back from its bits. -/
theorem gives (field : StreamField) :
    field.call.fromBytes.Gives field.spelled field.answer := by
  cases field with
  | bits width value =>
    have hfield := ByteReading.gives_ofNat width.is_le
      (Nat.mod_lt value.toNat (Nat.two_pow_pos width.val))
    rw [Bits.ofNat_mod] at hfield
    exact hfield.finish (ByteReading.gives_pure _)
  | bit value => exact (ByteReading.gives_bit value).finish (ByteReading.gives_pure _)
  | number value => exact (ByteReading.gives_wordNumber value).finish (ByteReading.gives_pure _)
  | bytes content h => exact (ByteReading.gives_wordBytes h).finish (ByteReading.gives_pure _)
  | character letter =>
    exact (ByteReading.gives_character letter).finish (ByteReading.gives_pure _)
  | text content h => exact (ByteReading.gives_wordText h).finish (ByteReading.gives_pure _)

/-! ### Scripts -/

/-- Writes the fields of a script, and notes behind each of them how many bits were written. -/
def writeAll : List StreamField → ByteWriting (List ℕ)
  | [] => return []
  | field :: script => do
    field.write
    let mark := (← get).written
    let marks ← writeAll script
    return mark :: marks

/-- Where the fields of a script end, if the first one begins at `start`. -/
def ends (start : ℕ) : List StreamField → List ℕ
  | [] => []
  | field :: script => (start + field.size) :: ends (start + field.size) script

/-- The fields of a script are written behind whatever was written before. -/
theorem run_writeAll (script : List StreamField) (writer : ByteWriter) :
    ∃ left, (writeAll script).run writer = .ok (ends writer.written script) left ∧
      left.content = writer.content ++ script.flatMap spelled := by
  induction script generalizing writer with
  | nil => exact ⟨writer, rfl, (List.append_nil _).symm⟩
  | cons field script ih =>
    obtain ⟨middle, hrun, hmiddle⟩ := field.writes.run_ok _ _ rfl writer
    obtain ⟨left, hrest, hleft⟩ := ih middle
    have hmark : middle.written = writer.written + field.size := by
      rw [← middle.length_content, hmiddle, List.length_append, writer.length_content,
        field.length_spelled]
    refine ⟨left, ?_, ?_⟩
    · show (field.write >>= fun _ ↦ get >>= fun here ↦ writeAll script >>= fun marks ↦
        pure (here.written :: marks)).run writer = _
      rw [EStateM.run_bind, hrun]
      show (writeAll script >>= fun marks ↦ pure (middle.written :: marks)).run middle = _
      rw [EStateM.run_bind, hrest, ends, hmark]
      rfl
    · rw [hleft, hmiddle, List.append_assoc, List.flatMap_cons]

/-- The fields of a script are read back wherever their bits come next. -/
theorem run_performAll (script : List StreamField) (reader : ByteReader) (rest : Bits)
    (h : reader.cursor.upcoming = script.flatMap spelled ++ rest) :
    ∃ left, (performAll fromBytes ByteReader.position (script.map call)).run reader =
        .ok ((script.map answer).zip (ends reader.position script)) left ∧
      left.IsPast reader (script.flatMap spelled).length := by
  induction script generalizing reader with
  | nil => exact ⟨reader, rfl, ByteReader.isPast_zero⟩
  | cons field script ih =>
    rw [List.flatMap_cons, List.append_assoc] at h
    obtain ⟨middle, hrun, hmiddle⟩ := field.gives reader _ h
    have hmore : middle.cursor.upcoming = script.flatMap spelled ++ rest := by
      rw [hmiddle.cursor_eq]
      exact BitCursor.upcoming_drop h
    obtain ⟨left, hrest, hleft⟩ := ih middle hmore
    have hmark : middle.position = reader.position + field.size := by
      rw [hmiddle.position_eq, field.length_spelled]
    refine ⟨left, ?_, ?_⟩
    · rw [List.map_cons, performAll, EStateM.run_bind, hrun]
      show (performAll fromBytes ByteReader.position (script.map call) >>= fun answers ↦
        pure ((field.answer, middle.position) :: answers)).run middle = _
      rw [EStateM.run_bind, hrest, List.map_cons, ends, List.zip_cons_cons, hmark]
      rfl
    · rw [List.flatMap_cons, List.length_append]
      exact hmiddle.trans hleft

theorem length_flatMap_spelled (script : List StreamField) :
    (script.flatMap spelled).length = (script.map size).sum := by
  rw [List.length_flatMap]
  exact congrArg List.sum (List.map_congr_left fun field _ ↦ field.length_spelled)

/-- A script is read back from the stream of its bits, and then the recorded end is reached. -/
theorem performAll_ofBits (script : List StreamField) (count : ℕ) :
    ∃ start left, (PackedStream.ofBits (script.flatMap spelled) count).reader = .ok start ∧
      start.cursor = .ofBits (script.flatMap spelled) ∧
      (performAll fromBytes ByteReader.position (script.map call)).run start =
        .ok ((script.map answer).zip (ends 0 script)) left ∧
      left.position = (script.flatMap spelled).length ∧ left.isAtEnd = true := by
  have hopened := PackedStream.ofBytes_ofBits (script.flatMap spelled) count
  cases hstart : (PackedStream.ofBits (script.flatMap spelled) count).reader with
  | error error =>
    rw [PackedStream.ofBytes_of_reader_error hstart] at hopened
    cases hopened
  | ok start =>
    rw [PackedStream.cursor_of_reader hstart] at hopened
    have hcursor := Except.ok.inj hopened
    have hupcoming : start.cursor.upcoming = script.flatMap spelled ++ [] := by
      rw [hcursor, List.append_nil, BitCursor.ofBits]
    have hposition : start.position = 0 := congrArg BitCursor.position hcursor
    have hremaining : start.bitLength - start.position = (script.flatMap spelled).length :=
      congrArg BitCursor.remaining hcursor
    obtain ⟨left, hread, hleft⟩ := run_performAll script start [] hupcoming
    have hend := hleft.position_eq
    rw [hposition] at hread hremaining hend
    refine ⟨start, left, rfl, hcursor, hread, by rw [hend, Nat.zero_add], ?_⟩
    rw [ByteReader.isAtEnd, decide_eq_true_iff, hleft.bitLength_eq]
    omega

/-- A script is written without a fault, as the bits of its fields with zeros up to the end of a
byte. The fields are read back in their order, each of them passes as many bits as were written for
it, and in the end the recorded end is reached. A cursor in the bits of the fields does the same. -/
theorem script_readsBack (script : List StreamField) (count : ℕ) :
    ∃ writer, (writeAll script).run .empty = .ok (ends 0 script) writer ∧
      let stream := writer.stream count
      stream = .ofBits (script.flatMap spelled) count ∧
      stream.bitLength = (script.map size).sum ∧
      stream.bytes.length = (stream.bitLength + 7) / 8 ∧
      Bits.ofBytes stream.bytes = script.flatMap spelled ++
        List.replicate (8 * stream.bytes.length - stream.bitLength) false ∧
      ∃ start left, stream.reader = .ok start ∧
        (performAll fromBytes ByteReader.position (script.map call)).run start =
          .ok ((script.map answer).zip (ends 0 script)) left ∧
        left.position = stream.bitLength ∧ left.isAtEnd = true ∧
        (stream.bytes.length * 8 < UInt64.size →
          ByteReader.ofBytes stream.bytes (UInt64.ofNat stream.bitLength) = .ok start ∧
          (performAll ReaderCall.read BitCursor.position (script.map call)).run
              (.ofBits (script.flatMap spelled)) =
            .ok ((script.map answer).zip (ends 0 script)) left.cursor) := by
  obtain ⟨writer, hwritten, hcontent⟩ := run_writeAll script .empty
  rw [ByteWriter.content_empty, List.nil_append] at hcontent
  have hstream := writer.stream_eq count
  rw [hcontent] at hstream
  refine ⟨writer, hwritten, ?_⟩
  dsimp only
  rw [hstream]
  obtain ⟨start, left, hstart, hcursor, hread, hposition, hend⟩ := performAll_ofBits script count
  have hsize : (PackedStream.ofBits (script.flatMap spelled) count).bytes.length =
      ((script.flatMap spelled).length + 7) / 8 := Bits.length_toBytes _
  refine ⟨rfl, length_flatMap_spelled script, hsize, ?_, start, left, hstart, hread, hposition,
    hend, fun hfits ↦ ?_⟩
  · rw [hsize]
    exact Bits.ofBytes_toBytes _
  · have hlength : (script.flatMap spelled).length < UInt64.size := by omega
    have hopened := (ByteReader.ofBytes_eq_reader hfits hlength).trans hstart
    have hseen := ReaderCall.seenThrough_performAll (script.map call)
      (ByteReader.bitLength_lt_of_ofBytes hopened)
    rw [hread, hcursor] at hseen
    exact ⟨hopened, hseen.symm⟩

end StreamField

end HuffmanCoding
