import HuffmanCoding.Proofs.ByteReader
import HuffmanCoding.Proofs.Codec.Built
import HuffmanCoding.Proofs.CodebookGrammar

/-!
# Decoding along the tree

The plain way to decode is to walk from the root of a tree along the bits, a zero to the left and a
one to the right, until a leaf is reached (`Tree.walk`). A tree that is a lone leaf has no edges to
walk along, and its token has the codeword zero (`Tree.find`). The walk ends at a leaf if the way to
it begins the bits (`Tree.find_eq_some_iff`).

The decoder for the codebook of a tree never sees the tree, but it reads what the walk finds, and
where the walk finds nothing it fails and stays where it stood (`WindowDecoder.FollowsWalk`,
`Tree.decoder_followsWalk`).
-/

set_option autoImplicit false
set_option relaxedAutoImplicit false

namespace HuffmanCoding

variable {S : Type}

/-! ### Walking -/

namespace Tree

/-- The token of the leaf to which the bits lead, and the number of bits on the way there. There is
none if the bits end above a leaf. -/
def walk : Tree S → Bits → Option (Token S × ℕ)
  | leaf _ content, _ => some (content.token, 0)
  | node _ _ _ _, [] => none
  | node _ _ left _, false :: bits => (left.walk bits).map fun found ↦ (found.1, found.2 + 1)
  | node _ _ _ right, true :: bits => (right.walk bits).map fun found ↦ (found.1, found.2 + 1)

/-- The token whose codeword begins the bits, and the length of this codeword. The token of a lone
leaf takes a zero. -/
def find : Tree S → Bits → Option (Token S × ℕ)
  | leaf _ content, false :: _ => some (content.token, 1)
  | leaf _ _, _ => none
  | tree, bits => tree.walk bits

/-- A way below a child goes on from the bit that leads to the child. -/
theorem map_walk_eq_some_iff {child : Tree S} {token : Token S} {bits : Bits} {count : ℕ}
    (h : ∀ count, child.walk bits = some (token, count) ↔
      ∃ way ∈ child.paths, way.1.token = token ∧ way.2.length = count ∧ way.2 <+: bits)
    (bit : Bool) :
    (child.walk bits).map (fun found ↦ (found.1, found.2 + 1)) = some (token, count) ↔
      ∃ way ∈ child.paths.map (fun way ↦ (way.1, bit :: way.2)), way.1.token = token ∧
        way.2.length = count ∧ way.2 <+: bit :: bits := by
  rw [Option.map_eq_some_iff]
  constructor
  · rintro ⟨⟨found, steps⟩, hfound, heq⟩
    obtain ⟨rfl, rfl⟩ := Prod.mk.inj heq
    obtain ⟨way, hway, htoken, hlength, hprefix⟩ := (h steps).mp hfound
    refine ⟨_, List.mem_map_of_mem hway, htoken, ?_, ?_⟩
    · rw [List.length_cons, hlength]
    · rwa [List.prefix_cons_inj]
  · rintro ⟨_, hmem, htoken, hlength, hprefix⟩
    obtain ⟨way, hway, rfl⟩ := List.mem_map.mp hmem
    rw [List.prefix_cons_inj] at hprefix
    exact ⟨(token, way.2.length), (h _).mpr ⟨way, hway, htoken, rfl, hprefix⟩,
      by rw [← hlength, List.length_cons]⟩

/-- The ways below the other child begin with another bit. -/
theorem not_exists_of_ne {child : Tree S} {token : Token S} {bits : Bits} {count : ℕ}
    {bit other : Bool} (hother : other ≠ bit) :
    ¬ ∃ way ∈ child.paths.map (fun way ↦ (way.1, other :: way.2)),
      way.1.token = token ∧ way.2.length = count ∧ way.2 <+: bit :: bits := by
  rintro ⟨_, hmem, _, _, hprefix⟩
  obtain ⟨way, _, rfl⟩ := List.mem_map.mp hmem
  exact hother (List.cons_prefix_cons.mp hprefix).1

/-- The walk ends at the leaf whose way begins the bits. -/
theorem walk_eq_some_iff {tree : Tree S} {bits : Bits} {token : Token S} {count : ℕ} :
    tree.walk bits = some (token, count) ↔ ∃ way ∈ tree.paths,
      way.1.token = token ∧ way.2.length = count ∧ way.2 <+: bits := by
  induction tree generalizing bits count with
  | leaf position content => simp [walk, paths, eq_comm]
  | node position weight left right ihLeft ihRight =>
    simp only [paths, List.mem_append, or_and_right, exists_or]
    cases bits with
    | nil =>
      simp [walk]
    | cons bit bits =>
      cases bit with
      | false =>
        rw [or_iff_left (not_exists_of_ne Bool.false_ne_true.symm)]
        exact map_walk_eq_some_iff (fun _ ↦ ihLeft) false
      | true =>
        rw [or_iff_right (not_exists_of_ne Bool.false_ne_true)]
        exact map_walk_eq_some_iff (fun _ ↦ ihRight) true

/-- A token is found if the way that its codeword spells begins the bits. -/
theorem find_eq_some_iff {tree : Tree S} {bits : Bits} {token : Token S} {count : ℕ} :
    tree.find bits = some (token, count) ↔ ∃ way ∈ tree.ways,
      way.1.token = token ∧ way.2.length = count ∧ way.2 <+: bits := by
  cases tree with
  | leaf position content =>
    cases bits with
    | nil => simp [find, ways]
    | cons bit bits => cases bit <;> simp [find, ways, eq_comm]
  | node position weight left right => exact walk_eq_some_iff

/-- What is found takes a bit or more, and no more bits than there are. -/
theorem find_bounds {tree : Tree S} {bits : Bits} {token : Token S} {count : ℕ}
    (h : tree.find bits = some (token, count)) : 0 < count ∧ count ≤ bits.length := by
  obtain ⟨way, hway, _, rfl, hprefix⟩ := find_eq_some_iff.mp h
  exact ⟨(tree.isGreatest_longest.1 way hway).1, hprefix.length_le⟩

end Tree

/-! ### Decoders -/

namespace WindowDecoder

/-- A decoder that serves some rows fails for want of a codeword, and only where it stands. -/
theorem Serves.error_of_readToken {decoder : WindowDecoder S} {rows : List (CodeRow S)}
    (h : decoder.Serves rows) {cursor left : BitCursor} {error : Error}
    (hrun : (decoder.readToken : Reading (Token S)).run cursor = .error error left) :
    left = cursor ∧ ∃ fault, error = .malformed fault cursor.position := by
  rw [run_readToken] at hrun
  by_cases htaken : (decoder.slotAt cursor).isTaken = false
  · rw [if_pos htaken] at hrun
    cases hrun
    exact ⟨rfl, _, rfl⟩
  · rw [if_neg htaken] at hrun
    rw [Bool.not_eq_false] at htaken
    by_cases hpast : cursor.remaining < (decoder.slotAt cursor).length.toNat
    · rw [if_pos hpast] at hrun
      cases hrun
      exact ⟨rfl, _, rfl⟩
    · obtain ⟨row, _, _, _, htoken⟩ := h.exists_row (Bits.toNat_fit_lt _ _) htaken
      have hname : decoder.tokens[(decoder.slotAt cursor).token.toNat]? = some row.token := htoken
      rw [if_neg hpast, hname] at hrun
      cases hrun

/-- The decoder reads what the walk along a tree finds in the bits up to the recorded end, and
passes exactly the bits of the walk. Where the walk finds nothing, it reports where it stands and
stays there. -/
structure FollowsWalk (decoder : WindowDecoder S) (tree : Tree S) : Prop where
  reads_iff : ∀ (cursor left : BitCursor) (token : Token S),
    (decoder.readToken : Reading (Token S)).run cursor = .ok token left ↔
      ∃ count, tree.find cursor.upcoming = some (token, count) ∧ left = cursor.drop count
  advances : ∀ (cursor left : BitCursor) (token : Token S) (count : ℕ),
    (decoder.readToken : Reading (Token S)).run cursor = .ok token left →
      (tree.find cursor.upcoming = some (token, count) ↔ left.position = cursor.position + count)
  stays : ∀ cursor : BitCursor, tree.find cursor.upcoming = none →
    ∃ fault, (decoder.readToken : Reading (Token S)).run cursor =
      .error (.malformed fault cursor.position) cursor

/-- A decoder that serves the rows of a tree reads what the walk finds. -/
theorem Serves.readToken_eq_ok_iff [Symbol S] {decoder : WindowDecoder S} {tree : Tree S}
    (h : decoder.Serves (Codebook.ofTree tree).rows) (hlongest : tree.longest ≤ 32)
    (cursor left : BitCursor) (token : Token S) :
    (decoder.readToken : Reading (Token S)).run cursor = .ok token left ↔
      ∃ count, tree.find cursor.upcoming = some (token, count) ∧ left = cursor.drop count := by
  constructor
  · intro hrun
    obtain ⟨bits, rest, hupcoming, ⟨row, hrow, rfl, rfl⟩, rfl⟩ := h.obeys_readToken hrun
    obtain ⟨way, hway, rfl⟩ := Codebook.exists_way_of_mem_rows hrow
    rw [Codebook.path_ofWay hlongest hway] at hupcoming ⊢
    exact ⟨way.2.length, Tree.find_eq_some_iff.mpr
      ⟨way, hway, rfl, rfl, hupcoming ▸ List.prefix_append _ _⟩, rfl⟩
  · rintro ⟨count, hfind, rfl⟩
    obtain ⟨way, hway, rfl, rfl, rest, hrest⟩ := Tree.find_eq_some_iff.mp hfind
    have hrow : CodeRow.ofWay way ∈ (Codebook.ofTree tree).rows :=
      (Codebook.rows_ofTree_perm tree).mem_iff.mpr (List.mem_map_of_mem hway)
    have hgives := h.gives_readToken hrow
    rw [Codebook.path_ofWay hlongest hway] at hgives
    exact hgives cursor rest hrest.symm

theorem Serves.followsWalk [Symbol S] {decoder : WindowDecoder S} {tree : Tree S}
    (h : decoder.Serves (Codebook.ofTree tree).rows) (hlongest : tree.longest ≤ 32) :
    decoder.FollowsWalk tree where
  reads_iff := h.readToken_eq_ok_iff hlongest
  advances := by
    intro cursor left token count hrun
    obtain ⟨steps, hsteps, rfl⟩ := (h.readToken_eq_ok_iff hlongest _ _ _).mp hrun
    have hle := (Tree.find_bounds hsteps).2
    rw [← cursor.remaining_eq] at hle
    rw [hsteps, Option.some.injEq, Prod.mk.injEq, BitCursor.drop, Nat.min_eq_left hle,
      Nat.add_left_cancel_iff]
    exact and_iff_right rfl
  stays := by
    intro cursor hnone
    cases hrun : (decoder.readToken : Reading (Token S)).run cursor with
    | ok token left =>
      obtain ⟨count, hfind, _⟩ := (h.readToken_eq_ok_iff hlongest _ _ _).mp hrun
      rw [hnone] at hfind
      cases hfind
    | error error left =>
      obtain ⟨rfl, fault, rfl⟩ := h.error_of_readToken hrun
      exact ⟨fault, rfl⟩

end WindowDecoder

namespace Tree

/-- The codebook of every tree that is built has a decoder, whatever window its configuration
prefers, and the decoder reads what the walk along the tree finds. Where the bits are kept in bytes,
its window can be looked up in five of them from any place on. -/
theorem decoder_followsWalk [Symbol S] {frequencies : Frequencies S} {config : TableConfig}
    {tree : Tree S} (h : (build frequencies config).unheard = .ok tree) (windows : TableConfig) :
    ∃ decoder, (WindowDecoder.ofCodebook (Codebook.ofTree tree) windows).unheard = .ok decoder ∧
      decoder.FollowsWalk tree ∧ ∀ reader : ByteReader, decoder.slotAt reader.cursor =
        decoder.table.lookup (reader.peek decoder.table.width.toNat) := by
  obtain ⟨tables, htables⟩ := Tables.exists_build (isCodable_of_build h)
  have hderived := Tables.build_eq_ok_iff.mp htables
  have htree : tables.tree = tree := Except.ok.inj (hderived.tree_eq.symm.trans h)
  have hlongest := longest_le_of_build h
  have hserves := hderived.serves
  have htable := hderived.table_eq
  rw [hderived.book_eq, htree] at hserves htable
  refine ⟨tables.decoder, ?_, hserves.followsWalk hlongest, ?_⟩
  · refine WindowDecoder.ofCodebook_eq_ok_iff.mpr ⟨tables.decoder.table, htable, ?_⟩
    rw [← hserves.tokens_eq]
  · intro reader
    have hwidth : tables.decoder.table.width.toNat ≤ 32 := by
      rwa [(WindowTable.holds_of_build htable).1, Codebook.toNat_longest_ofTree hlongest]
    rw [reader.peek_eq hwidth, WindowDecoder.slotAt]

/-- In a tree of three letters the walk takes one bit or two, and the decoder takes as many, also
where other bits follow, and none where the walk does not reach a leaf. The tree of one letter has a
decoder that takes a zero for the letter, nothing else, and no zero from behind the recorded end. -/
theorem decoder_followsWalk_of_letters :
    (∃ (tree : Tree Char) (decoder : WindowDecoder Char),
      (build (((Frequencies.empty.add 'a' 1).add 'b' 1).add 'c' 2) .strict).unheard = .ok tree ∧
      (WindowDecoder.ofCodebook (Codebook.ofTree tree) .strict).unheard = .ok decoder ∧
      decoder.FollowsWalk tree ∧ tree.longest = 2 ∧
      (∃ left, (decoder.readToken : Reading (Token Char)).run (.ofBits [false, true, true]) =
        .ok (.symbol 'c') left ∧ left.position = 1) ∧
      (∃ left, (decoder.readToken : Reading (Token Char)).run (.ofBits [true, false, true]) =
        .ok (.symbol 'a') left ∧ left.position = 2) ∧
      (∃ left, (decoder.readToken : Reading (Token Char)).run (.ofBits [true, true, false]) =
        .ok (.symbol 'b') left ∧ left.position = 2) ∧
      ∃ fault, (decoder.readToken : Reading (Token Char)).run (.ofBits [true]) =
        .error (.malformed fault 0) (.ofBits [true])) ∧
    ∃ (tree : Tree Char) (decoder : WindowDecoder Char),
      (build (Frequencies.empty.add 'a' 1) .strict).unheard = .ok tree ∧
      (WindowDecoder.ofCodebook (Codebook.ofTree tree) .strict).unheard = .ok decoder ∧
      decoder.FollowsWalk tree ∧
      (∃ left, (decoder.readToken : Reading (Token Char)).run (.ofBits [false, true]) =
        .ok (.symbol 'a') left ∧ left.position = 1) ∧
      (∃ fault, (decoder.readToken : Reading (Token Char)).run (.ofBits [true]) =
        .error (.malformed fault 0) (.ofBits [true])) ∧
      ∃ fault, (decoder.readToken : Reading (Token Char)).run (.ofBits []) =
        .error (.malformed fault 0) (.ofBits []) := by
  constructor
  · have hcodable : IsCodable (((Frequencies.empty.add 'a' 1).add 'b' 1).add 'c' 2) .strict :=
      ⟨by decide, by decide +kernel, by decide +kernel⟩
    have hmerged : ofLeaves? (alphabet (((Frequencies.empty.add 'a' 1).add 'b' 1).add 'c' 2)
        .strict) = some (node 4 4 (leaf 2 ⟨.symbol 'c', 2⟩)
          (node 3 2 (leaf 0 ⟨.symbol 'a', 1⟩) (leaf 1 ⟨.symbol 'b', 1⟩))) := by
      rw [ofLeaves?, Frontier.ofLeaves_of_pairwise (by decide +kernel)]
      decide +kernel
    have htree := hcodable.build_eq hmerged (by decide +kernel)
    obtain ⟨decoder, hdecoder, hfollows, _⟩ := decoder_followsWalk htree .strict
    exact ⟨_, decoder, htree, hdecoder, hfollows, by decide +kernel,
      ⟨_, (hfollows.reads_iff _ _ _).mpr ⟨1, rfl, rfl⟩, rfl⟩,
      ⟨_, (hfollows.reads_iff _ _ _).mpr ⟨2, rfl, rfl⟩, rfl⟩,
      ⟨_, (hfollows.reads_iff _ _ _).mpr ⟨2, rfl, rfl⟩, rfl⟩, hfollows.stays _ rfl⟩
  · have htree : (build (Frequencies.empty.add 'a' 1) .strict).unheard =
        .ok (leaf 0 ⟨.symbol 'a', 1⟩) := rfl
    obtain ⟨decoder, hdecoder, hfollows, _⟩ := decoder_followsWalk htree .strict
    exact ⟨_, decoder, htree, hdecoder, hfollows,
      ⟨_, (hfollows.reads_iff _ _ _).mpr ⟨1, rfl, rfl⟩, rfl⟩, hfollows.stays _ rfl,
      hfollows.stays _ rfl⟩

end Tree

end HuffmanCoding
