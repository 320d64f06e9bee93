import ConsoleFont.Bytes.Cursor
import ConsoleFont.Proofs.Tokens
import ConsoleFont.UnicodeTable.Decode

/-! # The grammar of a unicode table

The list of a glyph spells single characters and then sequences, each behind a start marker, up to a
separator (`Encoding.SpellsEntries`), and a table is such lists one behind the other
(`Encoding.SpellsLists`). Data that is no table leaves the grammar at one place, in the list of one
glyph: where no character is spelled, where a sequence stays empty, or where the data ends
(`Encoding.Faulty`).

Main statement: `run_decode_iff`, a table is read exactly if it is there, and otherwise the first
place where the data leaves the grammar says what is wrong.
-/

namespace ConsoleFont.UnicodeTable

/-! ### The grammar -/

namespace Encoding

variable (encoding : Encoding)

inductive SpellsAll : List Char → Bytes → Prop
  | nil : SpellsAll [] []
  | cons {c : Char} {cs : List Char} {bytes behind : Bytes} : encoding.Spells c bytes →
      SpellsAll cs behind → SpellsAll (c :: cs) (bytes ++ behind)

/-- The bytes spell sequences, each behind a start marker and none of them empty. -/
inductive SpellsSequences : List (List Char) → Bytes → Prop
  | nil : SpellsSequences [] []
  | cons {cs : List Char} {sequences : List (List Char)} {bytes behind : Bytes} : cs ≠ [] →
      encoding.SpellsAll cs bytes → SpellsSequences sequences behind →
      SpellsSequences (cs :: sequences) (encoding.startMarker ++ (bytes ++ behind))

/-- The bytes are a list of the glyph at `position` without its separator: single characters, and
then sequences. -/
inductive SpellsEntries (position : Nat) : List Entry → Bytes → Prop
  | intro {singles : List Char} {sequences : List (List Char)} {bytes behind : Bytes} :
      encoding.SpellsAll singles bytes → encoding.SpellsSequences sequences behind →
      SpellsEntries position
        (singles.map (Entry.single position) ++ sequences.map (Entry.mk position)) (bytes ++ behind)

/-- The bytes are the lists of `count` glyphs from `position` on, each with its separator. -/
inductive SpellsLists : (count position : Nat) → List Entry → Bytes → Prop
  | nil (position : Nat) : SpellsLists 0 position [] []
  | cons {count position : Nat} {listed entries : List Entry} {bytes behind : Bytes} :
      encoding.SpellsEntries position listed bytes →
      SpellsLists count (position + 1) entries behind →
      SpellsLists (count + 1) position (listed ++ entries)
        (bytes ++ (encoding.separator ++ behind))

/-- Entries of a list have been spelled, and a start marker may stand behind them. -/
def Begun (position : Nat) (bytes : Bytes) : Prop :=
  ∃ listed entries opened, encoding.SpellsEntries position listed entries ∧
    (opened = [] ∨ opened = encoding.startMarker) ∧ bytes = entries ++ opened

/-- The data is no list of the glyph at `position`, and what is wrong with it where it leaves the
grammar. -/
inductive Faulty (position : Nat) : Bytes → Error → Prop
  | invalidCodePoint {begun rest : Bytes} : encoding.Begun position begun → encoding.Broken rest →
      Faulty position (begun ++ rest) (.invalidCodePoint position)
  | emptySequence {listed : List Entry} {bytes marker : Bytes} (rest : Bytes) :
      encoding.SpellsEntries position listed bytes →
      marker = encoding.startMarker ∨ marker = encoding.separator →
      Faulty position (bytes ++ (encoding.startMarker ++ (marker ++ rest)))
        (.emptySequence position)
  | short {begun rest : Bytes} : encoding.Begun position begun → encoding.Cut rest →
      Faulty position (begun ++ rest) .shortUnicodeTable

/-- The data is not the lists of `count` glyphs from `first` on: the list of one of them is faulty,
behind those that are not. -/
def FaultyLists (count first : Nat) (data : Bytes) (error : Error) : Prop :=
  ∃ before entries lists behind, before < count ∧ data = lists ++ behind ∧
    encoding.SpellsLists before first entries lists ∧
    encoding.Faulty (first + before) behind error

end Encoding

/-! ### Reading the list of a glyph -/

variable {encoding : Encoding} {position : Nat} {entries : List Entry}
  {sequence : Option (List Char)} {data rest : Bytes}

theorem entryList_eq (encoding : Encoding) (position : Nat) (entries : List Entry)
    (sequence : Option (List Char)) (data : Bytes) :
    entryList encoding position entries sequence data =
      match encoding.token data with
      | .error _ => .error .shortUnicodeTable
      | .ok (.separator, rest) =>
        match finish position entries sequence with
        | .ok entries => .ok (entries, rest)
        | .error error => .error error
      | .ok (.startSequence, rest) =>
        match finish position entries sequence with
        | .ok entries => entryList encoding position entries (some []) rest
        | .error error => .error error
      | .ok (.codePoint none, _) => .error (.invalidCodePoint position)
      | .ok (.codePoint (some character), rest) =>
        entryList encoding position (place position character entries sequence).1
          (place position character entries sequence).2 rest := by
  rw [entryList]
  split
  all_goals
    rename_i hToken
    exact hToken ▸ rfl

theorem entryList_of_separator (h : encoding.token data = .ok (.separator, rest)) :
    entryList encoding position entries sequence data =
      match finish position entries sequence with
      | .ok entries => .ok (entries, rest)
      | .error error => .error error := by
  rw [entryList_eq, h]

theorem entryList_of_startSequence (h : encoding.token data = .ok (.startSequence, rest)) :
    entryList encoding position entries sequence data =
      match finish position entries sequence with
      | .ok entries => entryList encoding position entries (some []) rest
      | .error error => .error error := by
  rw [entryList_eq, h]

theorem entryList_of_codePoint {character : Char}
    (h : encoding.token data = .ok (.codePoint (some character), rest)) :
    entryList encoding position entries sequence data =
      entryList encoding position (place position character entries sequence).1
        (place position character entries sequence).2 rest := by
  rw [entryList_eq, h]

theorem entryList_of_broken (h : encoding.Broken data) :
    entryList encoding position entries sequence data = .error (.invalidCodePoint position) := by
  obtain ⟨rest, hBroken⟩ := token_of_broken h
  rw [entryList_eq, hBroken]

theorem entryList_of_cut (h : encoding.Cut data) :
    entryList encoding position entries sequence data = .error .shortUnicodeTable := by
  rw [entryList_eq, token_of_cut h]

theorem entryList_singles {singles : List Char} {bytes : Bytes}
    (h : encoding.SpellsAll singles bytes) (entries : List Entry) (data : Bytes) :
    entryList encoding position entries none (bytes ++ data) =
      entryList encoding position ((singles.map (Entry.single position)).reverse ++ entries) none
        data := by
  induction h generalizing entries with
  | nil => rfl
  | @cons c cs bytes behind hSpells _ ih =>
    rw [List.append_assoc, entryList_of_codePoint (token_of_spells hSpells _)]
    refine (ih (Entry.single position c :: entries)).trans ?_
    rw [List.map_cons, List.reverse_cons, List.append_assoc, List.singleton_append]

theorem entryList_characters {cs : List Char} {bytes : Bytes} (h : encoding.SpellsAll cs bytes)
    (opened : List Char) (data : Bytes) :
    entryList encoding position entries (some opened) (bytes ++ data) =
      entryList encoding position entries (some (cs.reverse ++ opened)) data := by
  induction h generalizing opened with
  | nil => rfl
  | @cons c cs bytes behind hSpells _ ih =>
    rw [List.append_assoc, entryList_of_codePoint (token_of_spells hSpells _)]
    refine (ih (c :: opened)).trans ?_
    rw [List.reverse_cons, List.append_assoc, List.singleton_append]

theorem finish_reverse {cs : List Char} (h : cs ≠ []) (entries : List Entry) :
    finish position entries (some cs.reverse) = .ok (⟨position, cs⟩ :: entries) := by
  cases hReverse : cs.reverse with
  | nil => exact absurd (List.reverse_eq_nil_iff.1 hReverse) h
  | cons last before =>
    simp only [finish]
    rw [← hReverse, List.reverse_reverse]

theorem exists_of_spellsSequences {sequences : List (List Char)} {bytes : Bytes}
    (h : encoding.SpellsSequences sequences bytes) {done : List Entry}
    (hFinish : finish position entries sequence = .ok done) :
    ∃ entries' sequence', finish position entries' sequence' =
        .ok ((sequences.map (Entry.mk position)).reverse ++ done) ∧
      ∀ data, entryList encoding position entries sequence (bytes ++ data) =
        entryList encoding position entries' sequence' data := by
  induction h generalizing entries sequence done with
  | nil => exact ⟨entries, sequence, hFinish, fun _ => rfl⟩
  | @cons cs sequences bytes behind hNonempty hAll _ ih =>
    obtain ⟨entries', sequence', hDone, hGo⟩ := ih (finish_reverse hNonempty done)
    refine ⟨entries', sequence', ?_, fun data => ?_⟩
    · rw [hDone, List.map_cons, List.reverse_cons, List.append_assoc, List.singleton_append]
    · rw [List.append_assoc, List.append_assoc,
        entryList_of_startSequence (token_startMarker encoding _), hFinish]
      simp only
      rw [entryList_characters hAll, List.append_nil, hGo]

theorem exists_of_spellsEntries {listed : List Entry} {bytes : Bytes}
    (h : encoding.SpellsEntries position listed bytes) (entries : List Entry) :
    ∃ entries' sequence', finish position entries' sequence' = .ok (listed.reverse ++ entries) ∧
      ∀ data, entryList encoding position entries none (bytes ++ data) =
        entryList encoding position entries' sequence' data := by
  obtain @⟨singles, sequences, bytes, behind, hSingles, hSequences⟩ := h
  obtain ⟨entries', sequence', hDone, hGo⟩ := exists_of_spellsSequences hSequences
    (rfl : finish position ((singles.map (Entry.single position)).reverse ++ entries) none = _)
  refine ⟨entries', sequence', ?_, fun data => ?_⟩
  · rw [hDone, List.reverse_append, List.append_assoc]
  · rw [List.append_assoc, entryList_singles hSingles, hGo]

/-- **A list in the grammar is read as its entries.** -/
theorem entryList_of_spellsEntries {listed : List Entry} {bytes : Bytes}
    (h : encoding.SpellsEntries position listed bytes) (entries : List Entry) (rest : Bytes) :
    entryList encoding position entries none (bytes ++ (encoding.separator ++ rest)) =
      .ok (listed.reverse ++ entries, rest) := by
  obtain ⟨entries', sequence', hDone, hGo⟩ := exists_of_spellsEntries h entries
  rw [hGo, entryList_of_separator (token_separator encoding rest), hDone]

theorem entryList_startMarker {listed : List Entry} {bytes : Bytes}
    (h : encoding.SpellsEntries position listed bytes) (entries : List Entry) (data : Bytes) :
    entryList encoding position entries none (bytes ++ (encoding.startMarker ++ data)) =
      entryList encoding position (listed.reverse ++ entries) (some []) data := by
  obtain ⟨entries', sequence', hDone, hGo⟩ := exists_of_spellsEntries h entries
  rw [hGo, entryList_of_startSequence (token_startMarker encoding data), hDone]

/-- Whatever is read behind the front of a list is read with some entries and some open sequence. -/
theorem exists_of_begun {bytes : Bytes} (h : encoding.Begun position bytes)
    (entries : List Entry) :
    ∃ entries' sequence', ∀ data, entryList encoding position entries none (bytes ++ data) =
      entryList encoding position entries' sequence' data := by
  obtain ⟨listed, front, opened, hListed, hOpened | hOpened, rfl⟩ := h
  · obtain ⟨entries', sequence', _, hGo⟩ := exists_of_spellsEntries hListed entries
    rw [hOpened, List.append_nil]
    exact ⟨entries', sequence', hGo⟩
  · refine ⟨listed.reverse ++ entries, some [], fun data => ?_⟩
    rw [hOpened, List.append_assoc, entryList_startMarker hListed]

/-- **A faulty list is refused for what is wrong with it.** -/
theorem entryList_of_faulty {error : Error} (h : encoding.Faulty position data error)
    (entries : List Entry) : entryList encoding position entries none data = .error error := by
  cases h with
  | invalidCodePoint hBegun hBroken =>
    obtain ⟨entries', sequence', hGo⟩ := exists_of_begun hBegun entries
    rw [hGo, entryList_of_broken hBroken]
  | short hBegun hCut =>
    obtain ⟨entries', sequence', hGo⟩ := exists_of_begun hBegun entries
    rw [hGo, entryList_of_cut hCut]
  | emptySequence rest hListed hMarker =>
    rw [entryList_startMarker hListed]
    rcases hMarker with rfl | rfl
    · rw [entryList_of_startSequence (token_startMarker encoding rest)]
      rfl
    · rw [entryList_of_separator (token_separator encoding rest)]
      rfl

/-! ### What is read is in the grammar -/

namespace Encoding

theorem SpellsAll.concat {cs : List Char} {c : Char} {bytes last : Bytes}
    (h : encoding.SpellsAll cs bytes) (hLast : encoding.Spells c last) :
    encoding.SpellsAll (cs ++ [c]) (bytes ++ last) := by
  induction h with
  | nil =>
    have hOne := SpellsAll.cons hLast .nil
    rwa [List.append_nil] at hOne
  | cons hSpells _ ih =>
    rw [List.cons_append, List.append_assoc]
    exact .cons hSpells ih

theorem SpellsSequences.concat {sequences : List (List Char)} {cs : List Char}
    {bytes last : Bytes} (h : encoding.SpellsSequences sequences bytes) (hNonempty : cs ≠ [])
    (hLast : encoding.SpellsAll cs last) :
    encoding.SpellsSequences (sequences ++ [cs]) (bytes ++ (encoding.startMarker ++ last)) := by
  induction h with
  | nil =>
    have hOne := SpellsSequences.cons hNonempty hLast .nil
    rwa [List.append_nil] at hOne
  | cons hFirst hSpells _ ih =>
    rw [List.cons_append, List.append_assoc, List.append_assoc]
    exact .cons hFirst hSpells ih

theorem SpellsEntries.concat {listed : List Entry} {cs : List Char} {bytes last : Bytes}
    (h : encoding.SpellsEntries position listed bytes) (hNonempty : cs ≠ [])
    (hLast : encoding.SpellsAll cs last) :
    encoding.SpellsEntries position (listed ++ [⟨position, cs⟩])
      (bytes ++ (encoding.startMarker ++ last)) := by
  obtain ⟨hSingles, hSequences⟩ := h
  rw [List.append_assoc, List.append_assoc]
  have hMore : encoding.SpellsEntries position _ _ :=
    .intro hSingles (hSequences.concat hNonempty hLast)
  rwa [List.map_append] at hMore

theorem spellsEntries_singles {cs : List Char} {bytes : Bytes} (h : encoding.SpellsAll cs bytes) :
    encoding.SpellsEntries position (cs.map (Entry.single position)) bytes := by
  have hEntries : encoding.SpellsEntries position _ _ := .intro h .nil
  rwa [List.map_nil, List.append_nil, List.append_nil] at hEntries

/-- How far a list has been read: the entries that are done, and the sequence that is open with its
newest character first. -/
inductive Reached (encoding : Encoding) (position : Nat) :
    List Entry → Option (List Char) → Bytes → Prop
  | singles {cs : List Char} {bytes : Bytes} : encoding.SpellsAll cs bytes →
      Reached encoding position (cs.map (Entry.single position)) none bytes
  | sequence {done : List Entry} {opened : List Char} {front bytes : Bytes} :
      encoding.SpellsEntries position done front → encoding.SpellsAll opened.reverse bytes →
      Reached encoding position done (some opened) (front ++ (encoding.startMarker ++ bytes))

namespace Reached

variable {done : List Entry} {bytes : Bytes}

theorem finish {after : List Entry} (h : encoding.Reached position done sequence bytes)
    (hFinish : UnicodeTable.finish position (done.reverse ++ entries) sequence = .ok after) :
    ∃ listed, after = listed.reverse ++ entries ∧ encoding.SpellsEntries position listed bytes := by
  cases h with
  | singles hAll =>
    cases hFinish
    exact ⟨_, rfl, spellsEntries_singles hAll⟩
  | @sequence _ opened front bytes hDone hAll =>
    cases opened with
    | nil => cases hFinish
    | cons last before =>
      have hNonempty : (last :: before).reverse ≠ [] := by simp
      rw [← List.reverse_reverse (last :: before), finish_reverse hNonempty] at hFinish
      cases hFinish
      refine ⟨done ++ [⟨position, (last :: before).reverse⟩], ?_, hDone.concat hNonempty hAll⟩
      rw [List.reverse_append, List.reverse_singleton, List.singleton_append, List.cons_append]

theorem finish_error {error : Error} (h : encoding.Reached position done sequence bytes)
    (hFinish : UnicodeTable.finish position (done.reverse ++ entries) sequence = .error error) :
    error = .emptySequence position ∧
      ∃ front, encoding.SpellsEntries position done front ∧
        bytes = front ++ encoding.startMarker := by
  cases h with
  | singles hAll => cases hFinish
  | @sequence _ opened front bytes hDone hAll =>
    cases opened with
    | nil =>
      cases hFinish
      cases hAll
      exact ⟨rfl, front, hDone, by rw [List.append_nil]⟩
    | cons last before => cases hFinish

theorem begun (h : encoding.Reached position done sequence bytes) :
    encoding.Begun position bytes := by
  cases h with
  | singles hAll =>
    exact ⟨_, bytes, [], spellsEntries_singles hAll, .inl rfl, (List.append_nil bytes).symm⟩
  | @sequence _ opened front bytes hDone hAll =>
    cases opened with
    | nil =>
      cases hAll
      exact ⟨done, front, encoding.startMarker, hDone, .inr rfl, by rw [List.append_nil]⟩
    | cons last before =>
      have hNonempty : (last :: before).reverse ≠ [] := by simp
      exact ⟨_, _, [], hDone.concat hNonempty hAll, .inl rfl, (List.append_nil _).symm⟩

theorem place {c : Char} {last : Bytes} (h : encoding.Reached position done sequence bytes)
    (hLast : encoding.Spells c last) (entries : List Entry) :
    ∃ done', (UnicodeTable.place position c (done.reverse ++ entries) sequence).1 =
        done'.reverse ++ entries ∧
      encoding.Reached position done'
        (UnicodeTable.place position c (done.reverse ++ entries) sequence).2 (bytes ++ last) := by
  cases h with
  | @singles cs bytes hAll =>
    refine ⟨(cs ++ [c]).map (Entry.single position), ?_, .singles (hAll.concat hLast)⟩
    rw [List.map_append, List.reverse_append]
    rfl
  | @sequence _ opened front bytes hDone hAll =>
    refine ⟨done, rfl, ?_⟩
    rw [List.append_assoc, List.append_assoc]
    refine .sequence hDone ?_
    rw [List.reverse_cons]
    exact hAll.concat hLast

end Reached

inductive ReadsList (encoding : Encoding) (position : Nat) (entries : List Entry) :
    Bytes → Except Error (List Entry × Bytes) → Prop
  | entries {listed : List Entry} {bytes : Bytes} (rest : Bytes) :
      encoding.SpellsEntries position listed bytes →
      ReadsList encoding position entries (bytes ++ (encoding.separator ++ rest))
        (.ok (listed.reverse ++ entries, rest))
  | faulty {data : Bytes} {error : Error} : encoding.Faulty position data error →
      ReadsList encoding position entries data (.error error)

end Encoding

/-- From wherever reading has come, what is read is in the grammar or leaves it. -/
theorem readsList_of_reached {done : List Entry} {bytes : Bytes}
    (h : encoding.Reached position done sequence bytes) (entries : List Entry) (data : Bytes) :
    encoding.ReadsList position entries (bytes ++ data)
      (entryList encoding position (done.reverse ++ entries) sequence data) := by
  generalize hBefore : done.reverse ++ entries = before
  -- token by token, where `Reached` says what the tokens before have spelled
  fun_induction entryList encoding position before sequence data generalizing done bytes with
  | case1 before sequence data error hToken =>
    have hReads := reads_of_token hToken
    cases hReads with
    | cut hCut => exact .faulty (.short h.begun hCut)
  | case2 before sequence data rest hToken after hFinish =>
    have hReads := reads_of_token hToken
    subst hBefore
    obtain ⟨listed, rfl, hListed⟩ := h.finish hFinish
    cases hReads with
    | separator => exact .entries rest hListed
  | case3 before sequence data rest hToken error hFinish =>
    have hReads := reads_of_token hToken
    subst hBefore
    obtain ⟨rfl, front, hFront, rfl⟩ := h.finish_error hFinish
    cases hReads with
    | separator =>
      rw [List.append_assoc]
      exact .faulty (.emptySequence rest hFront (.inr rfl))
  | case4 before sequence data rest hToken after hFinish ih =>
    have hReads := reads_of_token hToken
    subst hBefore
    obtain ⟨listed, rfl, hListed⟩ := h.finish hFinish
    cases hReads with
    | startSequence =>
      have hOpened := ih (.sequence hListed .nil) rfl
      rwa [List.append_nil, List.append_assoc] at hOpened
  | case5 before sequence data rest hToken error hFinish =>
    have hReads := reads_of_token hToken
    subst hBefore
    obtain ⟨rfl, front, hFront, rfl⟩ := h.finish_error hFinish
    cases hReads with
    | startSequence =>
      rw [List.append_assoc]
      exact .faulty (.emptySequence rest hFront (.inl rfl))
  | case6 before sequence data rest hToken =>
    have hReads := reads_of_token hToken
    cases hReads with
    | broken hBroken => exact .faulty (.invalidCodePoint h.begun hBroken)
  | case7 before sequence data c rest hToken entries' sequence' hPlace ih =>
    have hReads := reads_of_token hToken
    subst hBefore
    cases hReads with
    | @character _ last _ hSpells =>
      obtain ⟨done', hEntries, hReached⟩ := h.place hSpells entries
      rw [hPlace] at hEntries hReached
      rw [← List.append_assoc]
      exact ih hReached hEntries.symm

/-- **A list is read as its entries, or refused for what is wrong with it.** -/
theorem readsList_entryList (encoding : Encoding) (position : Nat) (entries : List Entry)
    (data : Bytes) :
    encoding.ReadsList position entries data (entryList encoding position entries none data) :=
  readsList_of_reached (.singles .nil) entries data

/-! ### Reading the lists of all glyphs -/

theorem entryLists_of_spellsLists {count first : Nat} {listed : List Entry} {lists : Bytes}
    (h : encoding.SpellsLists count first listed lists) (more : Nat) (entries : List Entry)
    (rest : Bytes) :
    entryLists encoding (count + more) first entries (lists ++ rest) =
      entryLists encoding more (first + count) (listed.reverse ++ entries) rest := by
  induction h generalizing entries with
  | nil => rw [Nat.zero_add]; rfl
  | @cons count position listed behind bytes lists hListed _ ih =>
    have hCount : count + 1 + more = count + more + 1 := by omega
    have hPosition : position + 1 + count = position + (count + 1) := by omega
    rw [hCount, entryLists, List.append_assoc, List.append_assoc,
      entryList_of_spellsEntries hListed]
    simp only
    rw [ih, hPosition, List.reverse_append, List.append_assoc]

theorem entryLists_of_faultyLists {count first : Nat} {error : Error}
    (h : encoding.FaultyLists count first data error) (entries : List Entry) :
    entryLists encoding count first entries data = .error error := by
  obtain ⟨before, listed, lists, behind, hBefore, rfl, hLists, hFaulty⟩ := h
  obtain ⟨more, rfl⟩ : ∃ more, count = before + (more + 1) := ⟨count - before - 1, by omega⟩
  rw [entryLists_of_spellsLists hLists, entryLists, entryList_of_faulty hFaulty]

inductive Encoding.ReadsLists (encoding : Encoding) (count first : Nat) (entries : List Entry) :
    Bytes → Except Error (List Entry × Bytes) → Prop
  | lists {listed : List Entry} {lists : Bytes} (rest : Bytes) :
      encoding.SpellsLists count first listed lists →
      ReadsLists encoding count first entries (lists ++ rest)
        (.ok (listed.reverse ++ entries, rest))
  | faulty {data : Bytes} {error : Error} : encoding.FaultyLists count first data error →
      ReadsLists encoding count first entries data (.error error)

theorem readsLists_entryLists (encoding : Encoding) (count first : Nat) (entries : List Entry)
    (data : Bytes) :
    encoding.ReadsLists count first entries data
      (entryLists encoding count first entries data) := by
  induction count generalizing first entries data with
  | zero => exact .lists data (.nil first)
  | succ count ih =>
    rw [entryLists]
    have hReads := readsList_entryList encoding first entries data
    generalize entryList encoding first entries none data = result at hReads
    cases hReads with
    | faulty hFaulty =>
      exact .faulty ⟨0, [], [], data, Nat.succ_pos count, rfl, .nil first, hFaulty⟩
    | @entries listed bytes rest hListed =>
      simp only
      have hMore := ih (first + 1) (listed.reverse ++ entries) rest
      generalize entryLists encoding count (first + 1) (listed.reverse ++ entries) rest = result
        at hMore
      cases hMore with
      | @lists behind lists rest hLists =>
        have hAll : encoding.ReadsLists (count + 1) first entries _ _ :=
          .lists rest (.cons hListed hLists)
        simpa only [List.append_assoc, List.reverse_append] using hAll
      | faulty hFaulty =>
        obtain ⟨before, behind, lists, last, hBefore, rfl, hLists, hFaulty⟩ := hFaulty
        have hPosition : first + 1 + before = first + (before + 1) := by omega
        rw [hPosition] at hFaulty
        exact .faulty ⟨before + 1, listed ++ behind, bytes ++ (encoding.separator ++ lists), last,
          Nat.succ_lt_succ hBefore, by simp only [List.append_assoc], .cons hListed hLists, hFaulty⟩

/-! ### Reading a table -/

variable {count : Nat}

theorem decode_of_spellsLists {listed : List Entry} {lists : Bytes}
    (h : encoding.SpellsLists count 0 listed lists) (rest : Bytes) :
    decode encoding count (lists ++ rest) = .ok (listed, rest) := by
  have hLists := entryLists_of_spellsLists h 0 [] rest
  rw [Nat.add_zero, List.append_nil] at hLists
  rw [decode, hLists]
  simp only [entryLists, List.reverse_reverse]

theorem decode_eq_ok_iff :
    decode encoding count data = .ok (entries, rest) ↔
      ∃ lists, data = lists ++ rest ∧ encoding.SpellsLists count 0 entries lists := by
  constructor
  · intro h
    have hReads := readsLists_entryLists encoding count 0 [] data
    rw [decode] at h
    generalize entryLists encoding count 0 [] data = result at h hReads
    cases hReads with
    | faulty hFaulty => cases h
    | @lists listed lists rest hLists =>
      simp only [List.append_nil, List.reverse_reverse] at h
      cases h
      exact ⟨lists, rfl, hLists⟩
  · rintro ⟨lists, rfl, hLists⟩
    exact decode_of_spellsLists hLists rest

theorem decode_eq_error_iff {error : Error} :
    decode encoding count data = .error error ↔ encoding.FaultyLists count 0 data error := by
  constructor
  · intro h
    have hReads := readsLists_entryLists encoding count 0 [] data
    rw [decode] at h
    generalize entryLists encoding count 0 [] data = result at h hReads
    cases hReads with
    | lists rest hLists => cases h
    | faulty hFaulty =>
      cases h
      exact hFaulty
  · intro h
    rw [decode, entryLists_of_faultyLists h]

theorem decodeAll_eq_ok_iff :
    decodeAll encoding count data = .ok entries ↔
      encoding.SpellsLists count 0 entries data := by
  constructor
  · intro h
    rw [decodeAll] at h
    split at h
    · rename_i hDecode
      cases h
      obtain ⟨lists, rfl, hLists⟩ := decode_eq_ok_iff.1 hDecode
      rwa [List.append_nil]
    · cases h
    · cases h
  · intro h
    have hDecode := decode_of_spellsLists h []
    rw [List.append_nil] at hDecode
    rw [decodeAll, hDecode]

theorem decodeAll_eq_error_iff {error : Error} :
    decodeAll encoding count data = .error error ↔
      encoding.FaultyLists count 0 data error ∨
        error = .trailingGarbage ∧ ∃ entries lists rest, data = lists ++ rest ∧
          encoding.SpellsLists count 0 entries lists ∧ rest ≠ [] := by
  constructor
  · intro h
    rw [decodeAll] at h
    split at h
    · cases h
    · rename_i entries byte behind hDecode
      cases h
      obtain ⟨lists, hData, hLists⟩ := decode_eq_ok_iff.1 hDecode
      exact .inr ⟨rfl, entries, lists, byte :: behind, hData, hLists, List.cons_ne_nil _ _⟩
    · rename_i hDecode
      cases h
      exact .inl (decode_eq_error_iff.1 hDecode)
  · rintro (hFaulty | ⟨rfl, entries, lists, rest, rfl, hLists, hRest⟩)
    · rw [decodeAll, decode_eq_error_iff.2 hFaulty]
    · cases rest with
      | nil => exact absurd rfl hRest
      | cons byte behind => rw [decodeAll, decode_of_spellsLists hLists]

/-- **The tables that are read.** From any place of any buffer, a table of `count` glyphs is read
exactly if the data from there on starts with their lists in the grammar. It is read as what these
spell, and the cursor then stands behind the last separator. Otherwise the first place where the
data leaves the grammar says what is wrong. -/
theorem run_decode_iff (encoding : Encoding) (count : Nat) (before data : Bytes) :
    (∀ entries after,
      Cursor.run (decode encoding count) ⟨before ++ data, before.length⟩ = .ok (entries, after) ↔
        ∃ lists rest, data = lists ++ rest ∧ encoding.SpellsLists count 0 entries lists ∧
          after = ⟨before ++ data, before.length + lists.length⟩) ∧
    ∀ error, Cursor.run (decode encoding count) ⟨before ++ data, before.length⟩ = .error error ↔
      encoding.FaultyLists count 0 data error := by
  have hRest : Cursor.rest ⟨before ++ data, before.length⟩ = data := List.drop_left
  have hPosition (lists rest : Bytes) (hData : data = lists ++ rest) :
      Cursor.length ⟨before ++ data, before.length⟩ - rest.length =
        before.length + lists.length := by
    rw [Cursor.length, hData, List.length_append, List.length_append]
    omega
  constructor
  · intro entries after
    rw [Cursor.run, hRest]
    constructor
    · intro h
      split at h
      · rename_i rest hDecode
        obtain ⟨lists, hData, hLists⟩ := decode_eq_ok_iff.1 hDecode
        cases h
        exact ⟨lists, rest, hData, hLists, by rw [hPosition lists rest hData]⟩
      · cases h
    · rintro ⟨lists, rest, hData, hLists, rfl⟩
      rw [decode_eq_ok_iff.2 ⟨lists, hData, hLists⟩]
      simp only
      rw [hPosition lists rest hData]
  · intro error
    rw [Cursor.run, hRest, ← decode_eq_error_iff]
    cases decode encoding count data with
    | ok => simp only [reduceCtorEq]
    | error => simp only [Except.error.injEq]

end ConsoleFont.UnicodeTable
