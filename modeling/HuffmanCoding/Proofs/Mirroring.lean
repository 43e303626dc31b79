import HuffmanCoding.Codec.TextLists
import Mathlib.Data.Nat.Notation
import Mathlib.Tactic.SplitIfs

/-!
# Readers on other states

A reader goes from cursor to cursor. Where more is kept than a cursor, a tally or the bytes that the
bits come from, each state shows a cursor. A computation on such states mirrors a reader if it has
the same outcome at every state as the reader has at the cursor shown, and leaves a state that shows
the cursor that the reader leaves (`Mirrors`). Computations that are put together in the same way as
the readers that they mirror mirror the result (`Mirrors.bind`).

All readers are put together from the primitive operations of a source. So where these mirror the
ones on cursors (`IsView`), all readers do: those of numbers, literals and items, those of tokens
and of streams, and those of spelled texts and of lists.
-/

set_option autoImplicit false
set_option relaxedAutoImplicit false

namespace HuffmanCoding

variable {σ α β : Type} {view : σ → BitCursor}

/-- An outcome on states, as far as the cursors show it. -/
def seenThrough (view : σ → BitCursor) :
    EStateM.Result Error σ α → EStateM.Result Error BitCursor α
  | .ok value left => .ok value (view left)
  | .error error left => .error error (view left)

/-- At each state the computation does what the reader does at the cursor shown. -/
def Mirrors (view : σ → BitCursor) (computation : EStateM Error σ α) (read : Reading α) : Prop :=
  ∀ state, seenThrough view (computation.run state) = read.run (view state)

namespace Mirrors

theorem pure (value : α) : Mirrors view (pure value) (pure value) :=
  fun _ ↦ rfl

theorem bind {first : EStateM Error σ α} {next : α → EStateM Error σ β} {read : Reading α}
    {readNext : α → Reading β} (hfirst : Mirrors view first read)
    (hnext : ∀ value, Mirrors view (next value) (readNext value)) :
    Mirrors view (first >>= next) (read >>= readNext) := by
  intro state
  rw [EStateM.run_bind, EStateM.run_bind, ← hfirst state]
  cases first.run state with
  | ok value left => exact hnext value left
  | error error left => rfl

theorem ite {first second : EStateM Error σ α} {read other : Reading α} (condition : Prop)
    [Decidable condition] (hfirst : Mirrors view first read) (hsecond : Mirrors view second other) :
    Mirrors view (if condition then first else second) (if condition then read else other) := by
  split_ifs
  · exact hfirst
  · exact hsecond

theorem itemsAfter {computation : ℕ → EStateM Error σ α} {read : ℕ → Reading α}
    (hread : ∀ index, Mirrors view (computation index) (read index)) (count : ℕ) (found : List α)
    (index : ℕ) : Mirrors view (Reading.itemsAfter computation count found index)
      (Reading.itemsAfter read count found index) := by
  induction count generalizing found index with
  | zero => exact .pure _
  | succ count ih => exact (hread index).bind fun next ↦ ih (next :: found) (index + 1)

theorem items {computation : ℕ → EStateM Error σ α} {read : ℕ → Reading α}
    (hread : ∀ index, Mirrors view (computation index) (read index)) (count : ℕ) :
    Mirrors view (Reading.items count computation) (Reading.items count read) :=
  itemsAfter hread count [] 0

/-- What a computation yields is what the reader yields. -/
theorem outcome_eq {computation : EStateM Error σ α} {read : Reading α}
    (h : Mirrors view computation read) (state : σ) :
    Reading.outcome computation state = Reading.outcome read (view state) := by
  unfold Reading.outcome
  rw [← h state]
  cases computation.run state <;> rfl

end Mirrors

/-! ### Views -/

/-- The primitive operations of a source mirror those on the cursors shown, as long as no more than
`width` bits are looked up at once. -/
structure IsView [BitInput (EStateM Error σ)] (view : σ → BitCursor) (width : ℕ) : Prop where
  wide : 32 ≤ width
  position : Mirrors view Reading.position Reading.position
  remaining : Mirrors view Reading.remaining Reading.remaining
  isAtEnd : Mirrors view Reading.isAtEnd Reading.isAtEnd
  peek : ∀ count ≤ width, Mirrors view (Reading.peek count) (Reading.peek count)
  skip : ∀ count, Mirrors view (Reading.skip count) (Reading.skip count)
  beginItem : Mirrors view Reading.beginItem Reading.beginItem
  fail : ∀ {α : Type} (fault : StreamFault) (offset : ℕ),
    Mirrors (α := α) view (Reading.fail fault offset) (Reading.fail fault offset)

namespace IsView

variable [BitInput (EStateM Error σ)] {width : ℕ}

/-! ### Fields and items -/

theorem bits (h : IsView view width) {count : ℕ} (hcount : count ≤ width) :
    Mirrors view (Reading.bits count) (Reading.bits count) :=
  (h.peek count hcount).bind fun value ↦ (h.skip count).bind fun _ ↦ .pure value

theorem item (h : IsView view width) {computation : EStateM Error σ α} {read : Reading α}
    (hread : Mirrors view computation read) :
    Mirrors view (Reading.item computation) (Reading.item read) :=
  h.beginItem.bind fun _ ↦ hread

theorem eachByte (h : IsView view width) (size : ℕ) :
    Mirrors view (Reading.eachByte size) (Reading.eachByte size) := by
  have hbyte : 8 ≤ width := Nat.le_trans (by decide) h.wide
  induction size with
  | zero => exact .pure []
  | succ size ih => exact (h.item (h.bits hbyte)).bind fun _ ↦ ih.bind fun _ ↦ .pure _

theorem bytesWithin (h : IsView view width) (needed size : ℕ) :
    Mirrors view (Reading.bytesWithin needed size) (Reading.bytesWithin needed size) :=
  h.position.bind fun _ ↦ h.remaining.bind fun _ ↦ .ite _ (h.fail _ _) (h.eachByte size)

/-! ### Numbers and literals -/

theorem numberFrom (h : IsView view width) (start allowed digits low : ℕ) :
    Mirrors view (Reading.numberFrom start allowed digits low)
      (Reading.numberFrom start allowed digits low) := by
  have hgroup : 8 ≤ width := Nat.le_trans (by decide) h.wide
  induction allowed generalizing digits low with
  | zero => exact (h.bits hgroup).bind fun _ ↦ h.fail _ _
  | succ allowed ih =>
    refine (h.bits hgroup).bind fun group ↦ ?_
    exact .ite _ (h.fail _ _) (.ite _ (.pure _) (ih _ _))

theorem number (h : IsView view width) : Mirrors view Reading.number Reading.number :=
  h.position.bind fun start ↦ h.numberFrom start 10 0 0

theorem counted (h : IsView view width) (fault : ℕ → StreamFault)
    {next : ℕ → EStateM Error σ α} {readNext : ℕ → Reading α}
    (hnext : ∀ count, Mirrors view (next count) (readNext count)) :
    Mirrors view (Reading.counted fault next) (Reading.counted fault readNext) :=
  h.position.bind fun _ ↦ h.number.bind fun count ↦ h.remaining.bind fun _ ↦
    .ite _ (h.fail _ _) (hnext count)

theorem character (h : IsView view width) : Mirrors view Reading.character Reading.character := by
  have hfield : characterBits ≤ width := Nat.le_trans (by decide) h.wide
  refine h.position.bind fun start ↦ (h.bits hfield).bind fun value ↦ ?_
  by_cases hvalid : value.isValidChar
  · rw [dif_pos hvalid, dif_pos hvalid]
    exact .pure _
  · rw [dif_neg hvalid, dif_neg hvalid]
    exact h.fail _ _

theorem textWith (h : IsView view width) {ι : Type} {size : EStateM Error σ ι}
    {readSize : Reading ι}
    {bytes : ι → EStateM Error σ (List UInt8)} {readBytes : ι → Reading (List UInt8)}
    (hsize : Mirrors view size readSize)
    (hbytes : ∀ count, Mirrors view (bytes count) (readBytes count)) :
    Mirrors view (Reading.textWith size bytes) (Reading.textWith readSize readBytes) := by
  refine h.position.bind fun _ ↦ hsize.bind fun count ↦ (hbytes count).bind fun data ↦ ?_
  cases Utf8.decode data with
  | ok content => exact .pure content
  | error fault => exact h.fail _ _

theorem text (h : IsView view width) : Mirrors view Reading.text Reading.text :=
  h.textWith h.number fun size ↦ h.bytesWithin (size * 8) size

/-! ### Tokens and streams -/

section Decoder

variable {S : Type} {decoder : WindowDecoder S}

theorem readToken (h : IsView view width) (hdecoder : decoder.table.width.toNat ≤ width) :
    Mirrors view decoder.readToken decoder.readToken := by
  refine h.position.bind fun _ ↦ h.remaining.bind fun left ↦
    (h.peek _ hdecoder).bind fun window ↦ ?_
  refine .ite _ (h.fail _ _) (.ite _ (h.fail _ _) ((h.skip _).bind fun _ ↦ ?_))
  cases decoder.tokens[(decoder.table.lookup window).token.toNat]? with
  | some token => exact .pure token
  | none => exact h.fail _ _

theorem readSymbol (h : IsView view width) (hdecoder : decoder.table.width.toNat ≤ width)
    {literal : EStateM Error σ S} {read : Reading S} (hliteral : Mirrors view literal read) :
    Mirrors view (decoder.readSymbol literal) (decoder.readSymbol read) := by
  refine (h.readToken hdecoder).bind fun token ↦ ?_
  cases token with
  | escape => exact hliteral
  | symbol symbol => exact .pure symbol

end Decoder

theorem readItems (h : IsView view width) {computation : EStateM Error σ α} {read : Reading α}
    (hread : Mirrors view computation read) (count : ℕ) :
    Mirrors view (PackedStream.readItems computation count)
      (PackedStream.readItems read count) := by
  have hitem (index : ℕ) : Mirrors view (PackedStream.readItem computation count index)
      (PackedStream.readItem read count index) :=
    h.position.bind fun _ ↦ h.isAtEnd.bind fun _ ↦ .ite _ (h.fail _ _) (h.item hread)
  exact (Mirrors.items hitem count).bind fun items ↦ h.position.bind fun _ ↦
    h.remaining.bind fun _ ↦ h.isAtEnd.bind fun _ ↦ .ite _ (.pure items) (h.fail _ _)

/-! ### Texts and lists -/

section Texts

variable {codec : TextCodec} {tables : Tables String}

theorem readSpelled (h : IsView view width)
    (hcharacters : ∀ tables, codec.characters.stage = .built tables →
      tables.decoder.table.width.toNat ≤ width) :
    Mirrors view codec.readSpelled codec.readSpelled := by
  unfold TextCodec.readSpelled
  cases hstage : codec.characters.stage with
  | training frequencies => exact h.text
  | built tables =>
    refine h.counted .tooManyCharacters fun count ↦ ?_
    refine (Mirrors.items (fun _ ↦ h.item ?_) count).bind fun characters ↦ .pure _
    exact h.readSymbol (hcharacters tables hstage) h.character

theorem readList (h : IsView view width) (htexts : tables.decoder.table.width.toNat ≤ width)
    (hcharacters : ∀ tables, codec.characters.stage = .built tables →
      tables.decoder.table.width.toNat ≤ width) :
    Mirrors view (TextListCodec.readList ⟨codec⟩ tables) (TextListCodec.readList ⟨codec⟩ tables) :=
  h.counted .tooManyTexts fun count ↦
    .items (fun _ ↦ h.item (h.readSymbol htexts (h.readSpelled hcharacters))) count

end Texts

end IsView

end HuffmanCoding
