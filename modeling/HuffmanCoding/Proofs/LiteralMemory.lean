import HuffmanCoding.Proofs.IntoBytes
import HuffmanCoding.Proofs.WindowDecoder

/-!
# Literals with a memory

A writer of literals that puts fields into bytes may look at what was written before, and may keep a
memory from one literal to the next; so may their reader. The two belong together if their memories
stay in a relation, and the reader, where it stands in the place of the literal, gives back the
symbol for the bits that the writer added there (`ByteWriting.IsReadBack`). Then a decoder reads
back each symbol (`WindowDecoder.Serves.readsBack_symbol`) and, by induction, each sequence that was
written (`WindowDecoder.Serves.readsBack_symbols`).
-/

set_option autoImplicit false
set_option relaxedAutoImplicit false

namespace HuffmanCoding

variable {ρ τ α β : Type}

namespace Reading

/-- Where the bits come next at a place of the stream, the reader yields the value and passes
exactly the bits. Its memory meets one condition before and another one after that. -/
def GivesAt (read : StateT τ Reading α) (place : ℕ) (before after : τ → Prop) (bits : Bits)
    (value : α) : Prop :=
  ∀ (memory : τ) (cursor : BitCursor) (rest : Bits), before memory → cursor.position = place →
    cursor.upcoming = bits ++ rest → ∃ later, after later ∧
      (read.run memory).run cursor = .ok (value, later) (cursor.drop bits.length)

theorem givesAt_pure {place : ℕ} {holds : τ → Prop} (value : α) :
    GivesAt (pure value) place holds holds [] value := by
  intro memory cursor rest hmemory _ _
  refine ⟨memory, hmemory, ?_⟩
  rw [List.length_nil, BitCursor.drop_zero]
  rfl

/-- A reader that does not use the memory leaves it as it is. -/
theorem Gives.givesAt {read : Reading α} {bits : Bits} {value : α} (h : read.Gives bits value)
    (place : ℕ) (holds : τ → Prop) :
    GivesAt (StateT.lift read) place holds holds bits value := by
  intro memory cursor rest hmemory _ hcursor
  refine ⟨memory, hmemory, ?_⟩
  show (read >>= fun value ↦ pure (value, memory)).run cursor = _
  rw [EStateM.run_bind, h cursor rest hcursor]
  rfl

/-- Two readers one after the other give their values for the bits one after the other. -/
theorem GivesAt.bind {first : StateT τ Reading α} {next : α → StateT τ Reading β} {place : ℕ}
    {before between after : τ → Prop} {bits more : Bits} {value : α} {result : β}
    (hfirst : GivesAt first place before between bits value)
    (hnext : GivesAt (next value) (place + bits.length) between after more result) :
    GivesAt (first >>= next) place before after (bits ++ more) result := by
  intro memory cursor rest hmemory hplace hcursor
  rw [List.append_assoc] at hcursor
  obtain ⟨middle, hmiddle, hrun⟩ := hfirst memory cursor _ hmemory hplace hcursor
  have hbehind : (cursor.drop bits.length).position = place + bits.length := by
    show cursor.position + min bits.length cursor.remaining = _
    rw [hplace, Nat.min_eq_left (BitCursor.le_remaining hcursor)]
  obtain ⟨later, hlater, hrest⟩ :=
    hnext middle _ rest hmiddle hbehind (BitCursor.upcoming_drop hcursor)
  refine ⟨later, hlater, ?_⟩
  show (first.run memory >>= fun found ↦ (next found.1).run found.2).run cursor = _
  rw [EStateM.run_bind, hrun]
  show ((next value).run middle).run _ = _
  rw [hrest, BitCursor.drop_drop, List.length_append]

/-- The last reader may pass nothing. -/
theorem GivesAt.finish {first : StateT τ Reading α} {next : α → StateT τ Reading β} {place : ℕ}
    {before between after : τ → Prop} {bits : Bits} {value : α} {result : β}
    (hfirst : GivesAt first place before between bits value)
    (hnext : GivesAt (next value) (place + bits.length) between after [] result) :
    GivesAt (first >>= next) place before after bits result := by
  have hbind := hfirst.bind hnext
  rwa [List.append_nil] at hbind

/-- In front of some bits the end is not reached. -/
theorem GivesAt.readItem {read : StateT τ Reading α} {place : ℕ} {before after : τ → Prop}
    {bits : Bits} {value : α} (h : GivesAt read place before after bits value) (hne : bits ≠ [])
    (count index : ℕ) :
    GivesAt (PackedStream.readItem read count index) place before after bits value := by
  intro memory cursor rest hmemory hplace hcursor
  have hleft : ¬ cursor.isAtEnd = true := by
    have hpos := List.length_pos_of_ne_nil hne
    have hle := BitCursor.le_remaining hcursor
    rw [BitCursor.isAtEnd, beq_iff_eq]
    omega
  obtain ⟨later, hlater, hrun⟩ := h memory cursor rest hmemory hplace hcursor
  refine ⟨later, hlater, ?_⟩
  show ((if cursor.isAtEnd then Reading.fail (.endedEarly index count) cursor.position
    else Reading.item read : StateT τ Reading α).run memory).run cursor = _
  rw [if_neg hleft]
  exact hrun

/-- What is left in the memory in the end is forgotten. -/
theorem outcome_run'_eq {read : StateT τ Reading α} {memory later : τ} {start left : BitCursor}
    {value : α} (h : (read.run memory).run start = .ok (value, later) left) :
    outcome (read.run' memory) start = .ok value := by
  refine outcome_eq_ok_iff.mpr ⟨left, ?_⟩
  rw [StateT.run'_eq, ← bind_pure_comp, EStateM.run_bind, h]
  rfl

/-- Items are read from a stream that has their bits, and then the end is reached. -/
theorem GivesAt.run_readItems {read : StateT τ Reading α} {before after : τ → Prop} {count : ℕ}
    {bits : Bits} {values : List α}
    (h : GivesAt (items count (PackedStream.readItem read count)) 0 before after bits values)
    {memory : τ} (hmemory : before memory) :
    ∃ later, ((PackedStream.readItems read count).run memory).run (.ofBits bits) =
      .ok (values, later) ((BitCursor.ofBits bits).drop bits.length) := by
  obtain ⟨later, _, hrun⟩ :=
    h memory (.ofBits bits) [] hmemory rfl (List.append_nil bits).symm
  have hend : ((BitCursor.ofBits bits).drop bits.length).isAtEnd = true := by
    rw [BitCursor.isAtEnd, beq_iff_eq]
    exact Nat.sub_self bits.length
  refine ⟨later, ?_⟩
  unfold PackedStream.readItems
  rw [StateT.run_bind, EStateM.run_bind, hrun]
  show ((if ((BitCursor.ofBits bits).drop bits.length).isAtEnd then pure values
    else _ : StateT τ Reading (List α)).run later).run _ = _
  rw [if_pos hend]
  rfl

end Reading

namespace ByteWriting

/-- The writer adds some bits behind what was written before, and in their place the reader gives
the value for these bits. Memories that agreed before agree again. -/
def IsReadBack (agree : ρ → τ → Prop) (write : StateT ρ ByteWriting α) (read : StateT τ Reading β)
    (value : β) : Prop :=
  ∀ memory writer result later left, (write.run memory).run writer = .ok (result, later) left →
    ∃ bits, left.content = writer.content ++ bits ∧
      Reading.GivesAt read writer.written (agree memory) (agree later) bits value

/-- Where two writers one after the other succeed, the first one does and then the second one. -/
theorem exists_run_of_bind {first : StateT ρ ByteWriting α} {next : α → StateT ρ ByteWriting β}
    {memory later : ρ} {writer left : ByteWriter} {result : β}
    (h : ((first >>= next).run memory).run writer = .ok (result, later) left) :
    ∃ value between middle, (first.run memory).run writer = .ok (value, between) middle ∧
      ((next value).run between).run middle = .ok (result, later) left := by
  change (first.run memory >>= fun written ↦ (next written.1).run written.2).run writer = _ at h
  rw [EStateM.run_bind] at h
  cases hfirst : (first.run memory).run writer with
  | error error middle =>
    rw [hfirst] at h
    cases h
  | ok written middle =>
    rw [hfirst] at h
    exact ⟨written.1, written.2, middle, rfl, h⟩

end ByteWriting

/-- If there is an escape and literals can always be written, every sequence is encoded. -/
theorem Codebook.exists_encodeWithMemory {S : Type} [Symbol S] {book : Codebook S}
    (hescape : book.escape.isSome = true) {write : S → StateT ρ ByteWriting Unit}
    (hwrite : ∀ symbol memory writer, ∃ later left,
      ((write symbol).run memory).run writer = .ok ((), later) left)
    (memory : ρ) (symbols : List S) :
    ∃ counted, book.encodeWithMemory write memory symbols = .ok counted := by
  have hsymbol (symbol : S) (memory : ρ) (writer : ByteWriter) : ∃ escaped later left,
      ((book.writeSymbol write symbol).run memory).run writer = .ok (escaped, later) left := by
    obtain ⟨escape, hescape⟩ := Option.isSome_iff_exists.mp hescape
    unfold writeSymbol
    cases book.codewordOf? symbol with
    | some codeword => exact ⟨false, memory, _, rfl⟩
    | none =>
      obtain ⟨later, left, hrun⟩ :=
        hwrite symbol memory (writer.put escape.length.toNat escape.bits.toNat)
      refine ⟨true, later, left, ?_⟩
      rw [hescape]
      show ((write symbol).run memory >>= fun written ↦ pure (true, written.2)).run _ = _
      rw [EStateM.run_bind, hrun]
      rfl
  have hsymbols (counted : Statistics) (memory : ρ) (writer : ByteWriter) :
      ∃ result later left, ((ByteWriting.each (book.writeSymbol write)
        (fun (statistics : Statistics) symbol ↦ statistics.tally (Symbol.rawBits symbol)) counted
          symbols).run memory).run writer = .ok (result, later) left := by
    induction symbols generalizing counted memory writer with
    | nil => exact ⟨counted, memory, writer, rfl⟩
    | cons symbol rest ih =>
      obtain ⟨escaped, between, middle, hfirst⟩ := hsymbol symbol memory writer
      obtain ⟨result, later, left, hrest⟩ := ih _ between middle
      refine ⟨result, later, left, ?_⟩
      unfold ByteWriting.each
      rw [StateT.run_bind, EStateM.run_bind, hfirst]
      exact hrest
  obtain ⟨statistics, later, left, hrun⟩ := hsymbols .empty memory .empty
  unfold encodeWithMemory ByteWriting.finish writeSymbols
  rw [StateT.run'_eq, ← bind_pure_comp, EStateM.run_bind, hrun]
  exact ⟨_, rfl⟩

namespace WindowDecoder

variable {S : Type}

/-- To read a codeword no memory is needed. -/
theorem readToken_eq_lift (decoder : WindowDecoder S) :
    (decoder.readToken : StateT τ Reading (Token S)) = StateT.lift decoder.readToken := by
  have hbind {α β : Type} (first : Reading α) (next : α → Reading β) :
      (StateT.lift (first >>= next) : StateT τ Reading β) =
        StateT.lift first >>= fun value ↦ StateT.lift (next value) :=
    liftM_bind (n := StateT τ Reading) first next
  unfold readToken
  simp only [hbind]
  refine bind_congr fun place ↦ bind_congr fun left ↦ bind_congr fun window ↦ ?_
  split_ifs
  · rfl
  · rfl
  · rw [hbind]
    refine bind_congr fun _ ↦ ?_
    split <;> rfl

theorem Serves.givesAt_readToken {decoder : WindowDecoder S} {rows : List (CodeRow S)}
    (h : decoder.Serves rows) {row : CodeRow S} (hrow : row ∈ rows) (place : ℕ)
    (holds : τ → Prop) :
    Reading.GivesAt decoder.readToken place holds holds row.codeword.path row.token := by
  rw [readToken_eq_lift]
  exact (h.gives_readToken hrow).givesAt place holds

section Symbols

variable [Symbol S] {book : Codebook S} {decoder : WindowDecoder S} {agree : ρ → τ → Prop}
  {write : S → StateT ρ ByteWriting Unit} {read : StateT τ Reading S}

/-- A symbol is written with a bit or more, and a decoder gives it back in the place of these. -/
theorem Serves.readsBack_symbol (h : decoder.Serves book.rows)
    (hbook : Codebook.ofSorted book.rows = book) (hnarrow : book.IsNarrow) {symbol : S}
    (hliteral : ByteWriting.IsReadBack agree (write symbol) read symbol) {memory later : ρ}
    {writer left : ByteWriter} {escaped : Bool}
    (hrun : ((book.writeSymbol write symbol).run memory).run writer =
      .ok (escaped, later) left) :
    ∃ bits ≠ [], left.content = writer.content ++ bits ∧
      Reading.GivesAt (decoder.readSymbol read) writer.written (agree memory) (agree later) bits
        symbol := by
  have hne (row : CodeRow S) (hrow : row ∈ book.rows) : row.codeword.path ≠ [] := by
    rw [Ne, Codeword.path_eq_nil_iff]
    exact (h.holds.fits _ (List.mem_map_of_mem hrow)).length_pos.ne'
  unfold Codebook.writeSymbol at hrun
  cases hcodeword : book.codewordOf? symbol with
  | some codeword =>
    rw [hcodeword] at hrun
    obtain ⟨row, hrow, htoken, rfl⟩ := Codebook.exists_row_of_codewordOf? hbook hcodeword
    cases hrun
    refine ⟨row.codeword.path, hne row hrow,
      writer.content_put (hnarrow (.symbol symbol) _ hcodeword) _, ?_⟩
    refine (h.givesAt_readToken hrow _ _).finish ?_
    rw [htoken]
    exact Reading.givesAt_pure symbol
  | none =>
    rw [hcodeword] at hrun
    cases hescape : book.escape with
    | none =>
      rw [hescape] at hrun
      cases hrun
    | some escape =>
      rw [hescape] at hrun
      obtain ⟨row, hrow, htoken, rfl⟩ := Codebook.exists_row_of_escape hbook hescape
      let behind := writer.put row.codeword.length.toNat row.codeword.bits.toNat
      have hput : behind.content = writer.content ++ row.codeword.path :=
        writer.content_put (hnarrow .escape _ hescape) _
      obtain ⟨_, _, _, hfirst, hrest⟩ := ByteWriting.exists_run_of_bind hrun
      cases hfirst
      obtain ⟨_, _, _, hwrite, hpure⟩ := ByteWriting.exists_run_of_bind hrest
      cases hpure
      obtain ⟨bits, hbits, hread⟩ := hliteral _ _ _ _ _ hwrite
      refine ⟨row.codeword.path ++ bits, ?_, ?_, (h.givesAt_readToken hrow _ _).bind ?_⟩
      · exact fun hnil ↦ hne row hrow (List.append_eq_nil_iff.mp hnil).1
      · rw [hbits, ← List.append_assoc, ← hput]
      · rw [htoken, Codeword.length_path]
        exact hread

/-- Symbols that are written one after the other are read back one after the other. -/
theorem Serves.readsBack_symbols (h : decoder.Serves book.rows)
    (hbook : Codebook.ofSorted book.rows = book) (hnarrow : book.IsNarrow) {symbols : List S}
    (hliteral : ∀ symbol ∈ symbols, ByteWriting.IsReadBack agree (write symbol) read symbol)
    (count : α → S → Bool → α) (counted : α) (total index : ℕ) (found : List S) :
    ByteWriting.IsReadBack agree
      (ByteWriting.each (book.writeSymbol write) count counted symbols)
      (Reading.itemsAfter (PackedStream.readItem (decoder.readSymbol read) total) symbols.length
        found index)
      (found.reverse ++ symbols) := by
  intro memory writer result later left hrun
  induction symbols generalizing counted index found memory writer with
  | nil =>
    cases hrun
    refine ⟨[], (List.append_nil _).symm, ?_⟩
    rw [List.append_nil]
    exact Reading.givesAt_pure _
  | cons symbol rest ih =>
    obtain ⟨escaped, between, middle, hfirst, hrest⟩ := ByteWriting.exists_run_of_bind hrun
    obtain ⟨bits, hne, hbits, hread⟩ := h.readsBack_symbol hbook hnarrow
      (hliteral symbol (List.mem_cons_self ..)) hfirst
    obtain ⟨more, hmore, hothers⟩ := ih (fun other hother ↦
      hliteral other (List.mem_cons_of_mem _ hother)) _ (index + 1) (symbol :: found) _ _ hrest
    refine ⟨bits ++ more, by rw [hmore, hbits, List.append_assoc], ?_⟩
    refine (hread.readItem hne total index).bind ?_
    rw [← writer.length_content, ← List.length_append, ← hbits, middle.length_content]
    rwa [List.reverse_cons, List.append_assoc, List.singleton_append] at hothers

/-- What was encoded is decoded, if the memories agree in the beginning. -/
theorem Serves.readsBack_encodeWithMemory (h : decoder.Serves book.rows)
    (hbook : Codebook.ofSorted book.rows = book) (hnarrow : book.IsNarrow) {symbols : List S}
    (hliteral : ∀ symbol ∈ symbols, ByteWriting.IsReadBack agree (write symbol) read symbol)
    {memory : ρ} {kept : τ} (hagree : agree memory kept) {stream : PackedStream}
    {statistics : Statistics}
    (hstream : book.encodeWithMemory write memory symbols = .ok (stream, statistics)) :
    ∃ bits later, stream = .ofBits bits symbols.length ∧
      ((PackedStream.readItems (decoder.readSymbol read) symbols.length).run kept).run
          (.ofBits bits) = .ok (symbols, later) ((BitCursor.ofBits bits).drop bits.length) := by
  unfold Codebook.encodeWithMemory ByteWriting.finish at hstream
  rw [StateT.run'_eq, ← bind_pure_comp, EStateM.run_bind] at hstream
  cases hrun : ((book.writeSymbols write symbols).run memory).run .empty with
  | error error left =>
    rw [hrun] at hstream
    cases hstream
  | ok written left =>
    rw [hrun] at hstream
    cases hstream
    obtain ⟨bits, hbits, hread⟩ := h.readsBack_symbols hbook hnarrow hliteral _ _
      symbols.length 0 [] _ _ _ _ _ hrun
    obtain ⟨later, hitems⟩ := hread.run_readItems hagree
    refine ⟨bits, later, ?_, hitems⟩
    rw [ByteWriter.stream_eq, hbits]
    rfl

end Symbols

end WindowDecoder

end HuffmanCoding
