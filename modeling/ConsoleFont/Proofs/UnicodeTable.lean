import ConsoleFont.Proofs.Grammar

/-! # Unicode maps and their tables

The lists of glyphs in a row spell a map that goes through the glyphs in order and has no entry
without a character, so that is what every table is read as (`mapOf_of_decodeIf`). The table written
for such a map spells it again (`spellsLists_encode`), so reading undoes writing (`decode_encode`).
-/

namespace ConsoleFont.UnicodeTable

/-! ### The entries of a map -/

structure Listed (position : Nat) (entry : Entry) : Prop where
  position_eq : entry.position = position
  characters_ne_nil : entry.characters ≠ []

/-- A map of the glyphs from `first` on and before `last`, in order. -/
structure MapOf (first last : Nat) (entries : List Entry) : Prop where
  le_position : ∀ entry ∈ entries, first ≤ entry.position
  position_lt : ∀ entry ∈ entries, entry.position < last
  characters_ne_nil : ∀ entry ∈ entries, entry.characters ≠ []
  sorted : entries.Pairwise fun a b => a.position ≤ b.position

namespace MapOf

theorem nil (first last : Nat) : MapOf first last [] :=
  ⟨by simp, by simp, by simp, .nil⟩

theorem append {first last : Nat} {listed entries : List Entry} (hFirst : first < last)
    (hListed : ∀ entry ∈ listed, Listed first entry) (h : MapOf (first + 1) last entries) :
    MapOf first last (listed ++ entries) where
  le_position entry hEntry := by
    rcases List.mem_append.1 hEntry with hEntry | hEntry
    · exact Nat.le_of_eq (hListed entry hEntry).position_eq.symm
    · exact Nat.le_of_succ_le (h.le_position entry hEntry)
  position_lt entry hEntry := by
    rcases List.mem_append.1 hEntry with hEntry | hEntry
    · rw [(hListed entry hEntry).position_eq]
      exact hFirst
    · exact h.position_lt entry hEntry
  characters_ne_nil entry hEntry := by
    rcases List.mem_append.1 hEntry with hEntry | hEntry
    · exact (hListed entry hEntry).characters_ne_nil
    · exact h.characters_ne_nil entry hEntry
  sorted := by
    refine List.pairwise_append.2 ⟨?_, h.sorted, fun a ha b hb => ?_⟩
    · refine List.pairwise_of_forall_mem_list fun a ha b hb => ?_
      exact Nat.le_of_eq ((hListed a ha).position_eq.trans (hListed b hb).position_eq.symm)
    · rw [(hListed a ha).position_eq]
      exact Nat.le_of_succ_le (h.le_position b hb)

end MapOf

/-! ### What reading gives -/

variable {encoding : Encoding} {position : Nat} {entries : List Entry} {data rest : Bytes}

theorem ne_nil_of_spellsSequences {sequences : List (List Char)} {bytes : Bytes}
    (h : encoding.SpellsSequences sequences bytes) : ∀ cs ∈ sequences, cs ≠ [] := by
  induction h with
  | nil => simp
  | cons hNonempty _ _ ih => exact List.forall_mem_cons.2 ⟨hNonempty, ih⟩

theorem listed_of_spellsEntries {listed : List Entry} {bytes : Bytes}
    (h : encoding.SpellsEntries position listed bytes) :
    ∀ entry ∈ listed, Listed position entry := by
  obtain ⟨_, hSequences⟩ := h
  refine List.forall_mem_append.2 ⟨?_, ?_⟩
  · intro entry hEntry
    obtain ⟨c, _, rfl⟩ := List.mem_map.1 hEntry
    exact ⟨rfl, List.cons_ne_nil _ _⟩
  · intro entry hEntry
    obtain ⟨cs, hCs, rfl⟩ := List.mem_map.1 hEntry
    exact ⟨rfl, ne_nil_of_spellsSequences hSequences cs hCs⟩

theorem mapOf_of_spellsLists {count first : Nat} {lists : Bytes}
    (h : encoding.SpellsLists count first entries lists) : MapOf first (first + count) entries := by
  induction h with
  | nil position => exact .nil _ _
  | @cons count position _ _ _ _ hListed _ ih =>
    refine .append (by omega) (listed_of_spellsEntries hListed) ?_
    rwa [Nat.add_right_comm] at ih

/-- **A table is read as a map of its glyphs, in order.** -/
theorem mapOf_of_decodeIf {present : Bool} {count : Nat}
    (h : decodeIf present encoding count data = .ok entries) : MapOf 0 count entries := by
  unfold decodeIf at h
  split at h
  · have hMap := mapOf_of_spellsLists (decodeAll_eq_ok_iff.1 h)
    rwa [Nat.zero_add] at hMap
  · cases h
    exact .nil 0 count

/-! ### How reading fails -/

inductive Fault : Error → Prop
  | short : Fault .shortUnicodeTable
  | invalidCodePoint (position : Nat) : Fault (.invalidCodePoint position)
  | emptySequence (position : Nat) : Fault (.emptySequence position)
  | trailingGarbage : Fault .trailingGarbage

theorem fault_of_faulty {error : Error} (h : encoding.Faulty position data error) :
    Fault error := by
  cases h with
  | invalidCodePoint => exact .invalidCodePoint position
  | emptySequence => exact .emptySequence position
  | short => exact .short

theorem fault_of_decodeIf {present : Bool} {count : Nat} {error : Error}
    (h : decodeIf present encoding count data = .error error) : Fault error := by
  unfold decodeIf at h
  split at h
  · rcases decodeAll_eq_error_iff.1 h with ⟨_, _, _, _, _, _, _, hFaulty⟩ | ⟨rfl, _⟩
    · exact fault_of_faulty hFaulty
    · exact .trailingGarbage
  · cases h

/-! ### What is written for the entries of a glyph -/

/-- The character is spelled by what is written for it. -/
def Encoding.Writes (encoding : Encoding) (character : Char) : Prop :=
  encoding.Spells character (encoding.character character)

theorem writes_utf8 (character : Char) : Encoding.utf8.Writes character :=
  .utf8 (CodePoint.form_utf8EncodeChar character)

theorem writes_units_iff {character : Char} :
    Encoding.units.Writes character ↔ character.toNat ≠ 0xFFFE ∧ character.toNat ≠ 0xFFFF := by
  constructor
  · intro h
    cases h with
    | units hStart hSeparator => exact ⟨hStart, hSeparator⟩
  · rintro ⟨hStart, hSeparator⟩
    exact .units hStart hSeparator

theorem writes_of_spells {character : Char} {bytes : Bytes} (h : encoding.Spells character bytes) :
    encoding.Writes character := by
  cases h with
  | units hStart hSeparator => exact .units hStart hSeparator
  | utf8 _ => exact writes_utf8 character

theorem writes_of_spellsAll {characters : List Char} {bytes : Bytes}
    (h : encoding.SpellsAll characters bytes) :
    ∀ character ∈ characters, encoding.Writes character := by
  induction h with
  | nil => simp
  | cons hSpells _ ih => exact List.forall_mem_cons.2 ⟨writes_of_spells hSpells, ih⟩

theorem writes_of_spellsSequences {sequences : List (List Char)} {bytes : Bytes}
    (h : encoding.SpellsSequences sequences bytes) :
    ∀ cs ∈ sequences, ∀ character ∈ cs, encoding.Writes character := by
  induction h with
  | nil => simp
  | cons _ hAll _ ih => exact List.forall_mem_cons.2 ⟨writes_of_spellsAll hAll, ih⟩

def Encoding.WritesEntry (encoding : Encoding) (entry : Entry) : Prop :=
  ∀ character ∈ entry.characters, encoding.Writes character

theorem writesEntry_of_spellsEntries {listed : List Entry} {bytes : Bytes}
    (h : encoding.SpellsEntries position listed bytes) :
    ∀ entry ∈ listed, encoding.WritesEntry entry := by
  obtain ⟨hSingles, hSequences⟩ := h
  refine List.forall_mem_append.2 ⟨?_, ?_⟩
  · intro entry hEntry
    obtain ⟨c, hMem, rfl⟩ := List.mem_map.1 hEntry
    exact List.forall_mem_singleton.2 (writes_of_spellsAll hSingles c hMem)
  · intro entry hEntry
    obtain ⟨cs, hMem, rfl⟩ := List.mem_map.1 hEntry
    exact writes_of_spellsSequences hSequences cs hMem

theorem writesEntry_of_spellsLists {count first : Nat} {lists : Bytes}
    (h : encoding.SpellsLists count first entries lists) :
    ∀ entry ∈ entries, encoding.WritesEntry entry := by
  induction h with
  | nil => simp
  | cons hListed _ ih =>
    exact List.forall_mem_append.2 ⟨writesEntry_of_spellsEntries hListed, ih⟩

/-- **Whatever is read from a table can be written again.** -/
theorem writesEntry_of_decodeIf {present : Bool} {count : Nat}
    (h : decodeIf present encoding count data = .ok entries) :
    ∀ entry ∈ entries, encoding.WritesEntry entry := by
  unfold decodeIf at h
  split at h
  · exact writesEntry_of_spellsLists (decodeAll_eq_ok_iff.1 h)
  · cases h
    simp

theorem spellsAll_characters {characters : List Char}
    (h : ∀ character ∈ characters, encoding.Writes character) :
    encoding.SpellsAll characters (encoding.characters characters) := by
  induction characters with
  | nil => exact .nil
  | cons character characters ih =>
    rw [List.forall_mem_cons] at h
    exact .cons h.1 (ih h.2)

theorem exists_spellsAll_of_singles {singles : List Entry}
    (hListed : ∀ entry ∈ singles, Listed position entry)
    (hSingle : ∀ entry ∈ singles, entry.isSequence = false)
    (h : ∀ entry ∈ singles, encoding.WritesEntry entry) :
    ∃ characters, singles = characters.map (Entry.single position) ∧
      encoding.SpellsAll characters
        (singles.flatMap fun entry => encoding.characters entry.characters) := by
  induction singles with
  | nil => exact ⟨[], rfl, .nil⟩
  | cons entry singles ih =>
    rw [List.forall_mem_cons] at hListed hSingle h
    obtain ⟨characters, hCharacters, hAll⟩ := ih hListed.2 hSingle.2 h.2
    obtain ⟨character, hCharacter⟩ : ∃ character, entry.characters = [character] := by
      refine List.length_eq_one_iff.1 ?_
      have hPos := List.length_pos_iff.2 hListed.1.characters_ne_nil
      have hOne := hSingle.1
      simp only [Entry.isSequence, decide_eq_false_iff_not] at hOne
      omega
    have hEntry : Entry.single position character = entry := by
      rw [Entry.single, ← hListed.1.position_eq, ← hCharacter]
    have hWrites : encoding.Writes character := h.1 character (by simp [hCharacter])
    refine ⟨character :: characters, by rw [List.map_cons, hEntry, ← hCharacters], ?_⟩
    rw [List.flatMap_cons, hCharacter, Encoding.characters, List.flatMap_singleton]
    exact .cons hWrites hAll

theorem spellsSequences_of_writes {sequences : List Entry}
    (hListed : ∀ entry ∈ sequences, Listed position entry)
    (h : ∀ entry ∈ sequences, encoding.WritesEntry entry) :
    encoding.SpellsSequences (sequences.map Entry.characters)
      (sequences.flatMap encoding.sequence) := by
  induction sequences with
  | nil => exact .nil
  | cons entry sequences ih =>
    rw [List.forall_mem_cons] at hListed h
    rw [List.flatMap_cons, Encoding.sequence, List.append_assoc]
    exact .cons hListed.1.characters_ne_nil (spellsAll_characters h.1) (ih hListed.2 h.2)

theorem map_mk_characters {sequences : List Entry}
    (hListed : ∀ entry ∈ sequences, Listed position entry) :
    (sequences.map Entry.characters).map (Entry.mk position) = sequences := by
  rw [List.map_map]
  refine (List.map_congr_left fun entry hEntry => ?_).trans (List.map_id sequences)
  rw [Function.comp_apply, ← (hListed entry hEntry).position_eq, id]

/-- **The list written for the entries of a glyph spells these.** -/
theorem exists_spellsEntries_entryList {listed : List Entry}
    (hListed : ∀ entry ∈ listed, Listed position entry)
    (h : ∀ entry ∈ listed, encoding.WritesEntry entry) :
    ∃ bytes, encoding.entryList listed = bytes ++ encoding.separator ∧
      encoding.SpellsEntries position listed bytes := by
  let single : Entry → Bool := fun entry => !entry.isSequence
  have hTake : ∀ entry ∈ listed.takeWhile single, entry ∈ listed :=
    fun entry hEntry => (List.takeWhile_sublist single).subset hEntry
  have hDrop : ∀ entry ∈ listed.dropWhile single, entry ∈ listed :=
    fun entry hEntry => (List.dropWhile_sublist single).subset hEntry
  have hSingle : ∀ entry ∈ listed.takeWhile single, entry.isSequence = false := by
    intro entry hEntry
    simpa [single] using List.all_eq_true.1 List.all_takeWhile entry hEntry
  obtain ⟨characters, hCharacters, hAll⟩ := exists_spellsAll_of_singles
    (fun entry hEntry => hListed entry (hTake entry hEntry)) hSingle
    (fun entry hEntry => h entry (hTake entry hEntry))
  have hDropListed : ∀ entry ∈ listed.dropWhile single, Listed position entry :=
    fun entry hEntry => hListed entry (hDrop entry hEntry)
  have hSequences := spellsSequences_of_writes hDropListed
    (fun entry hEntry => h entry (hDrop entry hEntry))
  refine ⟨_, rfl, ?_⟩
  have hEntries : encoding.SpellsEntries position _ _ := .intro hAll hSequences
  rwa [map_mk_characters hDropListed, ← hCharacters, List.takeWhile_append_dropWhile] at hEntries

/-! ### What is written for a map -/

def entriesAt (position : Nat) (entries : List Entry) : List Entry :=
  entries.filter fun entry => entry.position == position

theorem listed_of_mem_entriesAt {first last : Nat} {entries : List Entry}
    (h : MapOf first last entries) {entry : Entry} (hEntry : entry ∈ entriesAt position entries) :
    Listed position entry := by
  obtain ⟨hMem, hPosition⟩ := List.mem_filter.1 hEntry
  exact ⟨by simpa using hPosition, h.characters_ne_nil entry hMem⟩

theorem exists_behind_first {first last : Nat} {entries : List Entry}
    (h : MapOf first last entries) :
    ∃ behind, entries = entriesAt first entries ++ behind ∧ MapOf (first + 1) last behind := by
  induction entries with
  | nil => exact ⟨[], rfl, .nil _ _⟩
  | cons entry entries ih =>
    obtain ⟨hLe, hLt, hNonempty, hSorted⟩ := h
    rw [List.forall_mem_cons] at hLe hLt hNonempty
    rw [List.pairwise_cons] at hSorted
    obtain ⟨behind, hBehind, hMap⟩ := ih ⟨hLe.2, hLt.2, hNonempty.2, hSorted.2⟩
    by_cases hFirst : entry.position = first
    · refine ⟨behind, ?_, hMap⟩
      have hAt : entriesAt first (entry :: entries) = entry :: entriesAt first entries := by
        simp [entriesAt, hFirst]
      rw [hAt, List.cons_append, ← hBehind]
    · -- the map is sorted, so all entries are of glyphs behind the first
      have hAll : ∀ e ∈ entry :: entries, first + 1 ≤ e.position := by
        refine List.forall_mem_cons.2 ⟨by omega, fun e he => ?_⟩
        have hOrder := hSorted.1 e he
        omega
      refine ⟨entry :: entries, ?_, hAll, List.forall_mem_cons.2 hLt,
        List.forall_mem_cons.2 hNonempty, List.pairwise_cons.2 hSorted⟩
      have hNone : entriesAt first (entry :: entries) = [] := by
        refine List.filter_eq_nil_iff.2 fun e he => ?_
        have hOrder := hAll e he
        simp only [beq_iff_eq]
        omega
      rw [hNone, List.nil_append]

/-- Behind its first glyph, a map has the same entries as the map of the glyphs behind. -/
theorem entriesAt_append {first last : Nat} {listed behind : List Entry} (hLt : first < position)
    (hListed : ∀ entry ∈ listed, Listed first entry) (_ : MapOf (first + 1) last behind) :
    entriesAt position (listed ++ behind) = entriesAt position behind := by
  have hNone : entriesAt position listed = [] := by
    refine List.filter_eq_nil_iff.2 fun entry hEntry => ?_
    have hPosition := (hListed entry hEntry).position_eq
    simp only [beq_iff_eq]
    omega
  rw [entriesAt, List.filter_append]
  exact (congrArg (· ++ entriesAt position behind) hNone).trans (List.nil_append _)

def encodeFrom (encoding : Encoding) (first count : Nat) (entries : List Entry) : Bytes :=
  (List.range' first count).flatMap fun position =>
    encoding.entryList (entriesAt position entries)

theorem encodeFrom_succ {first count : Nat} {entries behind : List Entry}
    (h : MapOf first (first + (count + 1)) entries)
    (hBehind : entries = entriesAt first entries ++ behind)
    (hMap : MapOf (first + 1) (first + (count + 1)) behind) :
    encodeFrom encoding first (count + 1) entries =
      encoding.entryList (entriesAt first entries) ++
        encodeFrom encoding (first + 1) count behind := by
  rw [encodeFrom, List.range'_succ, List.flatMap_cons]
  refine congrArg _ (congrArg List.flatten (List.map_congr_left fun position hPosition => ?_))
  have hLt : first < position := by
    have := (List.mem_range'_1.1 hPosition).1
    omega
  rw [hBehind, entriesAt_append hLt (fun _ => listed_of_mem_entriesAt h) hMap]

theorem spellsLists_encodeFrom {first count : Nat} (h : MapOf first (first + count) entries)
    (hWrites : ∀ entry ∈ entries, encoding.WritesEntry entry) :
    encoding.SpellsLists count first entries (encodeFrom encoding first count entries) := by
  induction count generalizing first entries with
  | zero =>
    have hNil : entries = [] := by
      refine List.eq_nil_iff_forall_not_mem.2 fun entry hEntry => ?_
      have hLe := h.le_position entry hEntry
      have hLt := h.position_lt entry hEntry
      omega
    subst hNil
    exact .nil first
  | succ count ih =>
    -- the entries of the first glyph make its list, and the others are a map without it
    obtain ⟨behind, hBehind, hMap⟩ := exists_behind_first h
    have hSplit := hWrites
    rw [hBehind, List.forall_mem_append] at hSplit
    obtain ⟨bytes, hList, hListed⟩ := exists_spellsEntries_entryList
      (fun _ => listed_of_mem_entriesAt h) hSplit.1
    have hMore : encoding.SpellsLists count (first + 1) behind _ :=
      ih (by rwa [Nat.add_assoc, Nat.add_comm 1]) hSplit.2
    have hLists := Encoding.SpellsLists.cons hListed hMore
    rwa [← hBehind, ← List.append_assoc, ← hList, ← encodeFrom_succ h hBehind hMap] at hLists

/-- **The table written for a map that goes through the glyphs in order spells it.** -/
theorem spellsLists_encode {count : Nat} (h : MapOf 0 count entries)
    (hWrites : ∀ entry ∈ entries, encoding.WritesEntry entry) :
    encoding.SpellsLists count 0 entries (encode encoding count entries) := by
  have hTable : encode encoding count entries = encodeFrom encoding 0 count entries := by
    rw [encode, encodeFrom, List.range_eq_range']
    rfl
  rw [hTable]
  refine spellsLists_encodeFrom ?_ hWrites
  rwa [Nat.zero_add]

/-- **A map that goes through the glyphs in order is read back from its table.** -/
theorem decode_encode {count : Nat} (h : MapOf 0 count entries)
    (hWrites : ∀ entry ∈ entries, encoding.WritesEntry entry) (rest : Bytes) :
    decode encoding count (encode encoding count entries ++ rest) = .ok (entries, rest) :=
  decode_of_spellsLists (spellsLists_encode h hWrites) rest

theorem decodeIf_encodeIf {count : Nat} (h : MapOf 0 count entries)
    (hWrites : ∀ entry ∈ entries, encoding.WritesEntry entry) :
    decodeIf (!entries.isEmpty) encoding count
      (encodeIf (!entries.isEmpty) encoding count entries) = .ok entries := by
  cases hEmpty : entries.isEmpty with
  | true =>
    rw [List.isEmpty_iff.1 hEmpty]
    rfl
  | false => exact decodeAll_eq_ok_iff.2 (spellsLists_encode h hWrites)

end ConsoleFont.UnicodeTable
