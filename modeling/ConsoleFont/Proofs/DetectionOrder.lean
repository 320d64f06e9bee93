import ConsoleFont.Proofs.MoreOptions

/-! # The order in which formats are tried

Data starts with the signature of one format at most, and a format that has a signature passes on
data that does not start with it, without a call to the resolver. So all that trying the formats
comes to is decided by the one that signs the data (`Loader.observe_firstOf_filter`), and by the
format without a signature behind it: a list of parts may still leave its text to that one. The
parts of a list are found by the same loader, so the argument goes through all depths
(`Loader.followsFile_arranged`).

Main statement: `Font.alike_of_order`.
-/

namespace ConsoleFont

open LoadM

theorem Format.filter_signs_of_perm {formats other : List Format} (hPerm : formats.Perm other)
    (hNodup : formats.Nodup) (data : Bytes) :
    formats.filter (fun format => format.Signs data) =
      other.filter fun format => format.Signs data := by
  have hFiltered := hPerm.filter fun format => decide (format.Signs data)
  have hOnce := hNodup.filter fun format => decide (format.Signs data)
  have hSigns : ∀ format ∈ formats.filter (fun format => decide (format.Signs data)),
      format.Signs data := fun format hFormat => of_decide_eq_true (List.mem_filter.1 hFormat).2
  match hList : formats.filter fun format => decide (format.Signs data) with
  | [] =>
    rw [hList] at hFiltered ⊢
    exact hFiltered.nil_eq
  | [format] =>
    rw [hList] at hFiltered ⊢
    exact List.singleton_perm.1 hFiltered
  | format :: second :: rest =>
    rw [hList] at hOnce hSigns
    have hFirst := hSigns format List.mem_cons_self
    have hSecond := hSigns second (List.mem_cons_of_mem format List.mem_cons_self)
    have hMem : format ∈ second :: rest := hFirst.unique hSecond ▸ List.mem_cons_self
    exact absurd hMem (List.nodup_cons.1 hOnce).1

/-- All formats in some order, with the one that has no signature last, are the others in some order
and that one behind them. -/
theorem Format.exists_front {order : List Format} (hPerm : order.Perm detectionOrder)
    (hLast : order.getLast? = some .raw) :
    ∃ front, order = front ++ [.raw] ∧ front.Perm [.psf2, .psf1, .combined] := by
  obtain ⟨front, rfl⟩ := List.getLast?_eq_some_iff.1 hLast
  exact ⟨front, rfl, (List.perm_append_right_iff [.raw]).1 hPerm⟩

namespace Loader

variable (loader : Loader) {loadFile : Option (Path → LoadM Font)} (hFile : QuietFile loadFile)

include hFile

theorem observe_firstOf_filter {formats : List Format} (hRaw : .raw ∉ formats)
    (behind : List Format) (data : Bytes) (calls : Array Call) :
    (firstOf (loader.decode loadFile data) (formats ++ behind)).observe calls =
      (firstOf (loader.decode loadFile data)
        (formats.filter (fun format => format.Signs data) ++ behind)).observe calls := by
  have hQuiet := loader.quiet_decode hFile data
  induction formats generalizing calls with
  | nil => rfl
  | cons format formats ih =>
    rw [List.mem_cons, not_or] at hRaw
    by_cases hSigns : format.Signs data
    · rw [List.filter_cons, if_pos (decide_eq_true hSigns), List.cons_append, List.cons_append]
      by_cases hBad : ((loader.decode loadFile data format).observe calls).1 = .error .badMagic
      · -- the calls made so far stay, and both go on behind them
        rw [observe_firstOf_of_badMagic hQuiet _ (observe_eq_of_result hBad),
          observe_firstOf_of_badMagic hQuiet _ (observe_eq_of_result hBad)]
        exact ih hRaw.2 _
      · rw [observe_firstOf_of_ne hQuiet _ hBad, observe_firstOf_of_ne hQuiet _ hBad]
    · rw [List.filter_cons, if_neg (by simpa using hSigns), List.cons_append,
        observe_firstOf_of_badMagic hQuiet _
          (loader.observe_decode_of_not_signs data calls hFile (Ne.symm hRaw.1) hSigns)]
      exact ih hRaw.2 calls

theorem observe_firstOf_arranged {order other : List Format}
    (hPerm : order.Perm Format.detectionOrder) (hLast : order.getLast? = some .raw)
    (hPerm' : other.Perm Format.detectionOrder) (hLast' : other.getLast? = some .raw)
    (data : Bytes) (calls : Array Call) :
    (firstOf (loader.decode loadFile data) order).observe calls =
      (firstOf (loader.decode loadFile data) other).observe calls := by
  obtain ⟨front, rfl, hFront⟩ := Format.exists_front hPerm hLast
  obtain ⟨front', rfl, hFront'⟩ := Format.exists_front hPerm' hLast'
  have hRaw : .raw ∉ front := fun hMem => absurd (hFront.mem_iff.1 hMem) (by decide)
  have hRaw' : .raw ∉ front' := fun hMem => absurd (hFront'.mem_iff.1 hMem) (by decide)
  have hNodup : front.Nodup := hFront.nodup_iff.2 (by decide)
  rw [loader.observe_firstOf_filter hFile hRaw, loader.observe_firstOf_filter hFile hRaw',
    Format.filter_signs_of_perm (hFront.trans hFront'.symm) hNodup]

end Loader

/-! ### Loaders that differ in their order -/

theorem Comparison.push_congr {calls calls' : Array Call} (call : Call) (h : calls = calls') :
    calls.push call = calls'.push call := by
  rw [h]

/-- A load is followed from the same calls on, up to its end. -/
def Comparison.exact : Comparison where
  Same calls calls' := calls = calls'
  Stops _ := False
  same_push := @push_congr
  not_stops_badMagic := not_false

theorem Comparison.eq_of_exact {α : Type} {outcome other : Except Error α × Array Call}
    (h : Comparison.exact.Agree outcome other) : outcome = other := by
  cases h with
  | stopped _ _ hStops => exact hStops.elim
  | same result hSame => exact congrArg (Prod.mk result) hSame

namespace Loader

variable {loader : Loader} {loadFile loadFile' : Option (Path → LoadM Font)}

theorem inStep_exact_decode (hQuiet : QuietFile loadFile) (hQuiet' : QuietFile loadFile')
    (hFile : FollowsFile .exact loadFile loadFile') (data : Bytes) (format : Format) :
    InStep .exact (loader.decode loadFile data format) (loader.decode loadFile' data format) := by
  cases hResolver : loader.options.resolver with
  | some resolver =>
    have hFollows : Follows .exact loader loader := by
      refine ⟨rfl, rfl, .inl rfl, .inl ⟨resolver, resolver, hResolver, hResolver, ?_⟩⟩
      rintro calls _ name rfl
      rfl
    exact inStep_decode hFollows hQuiet hQuiet' hFile data format
  | none =>
    have hNamed : loader.joinNamed loadFile = loader.joinNamed loadFile' := by
      funext names
      unfold joinNamed
      rw [hResolver]
    have hDecode : loader.decode loadFile data format = loader.decode loadFile' data format := by
      cases format with
      | psf2 => rfl
      | psf1 => rfl
      | raw => rfl
      | combined =>
        show loader.combined loadFile data = loader.combined loadFile' data
        rw [combined_eq, combined_eq, hNamed]
    rw [hDecode]
    rintro calls _ rfl
    exact .same _ rfl

section Arranged

variable {order : List Format} (hPerm : order.Perm Format.detectionOrder)
  (hLast : order.getLast? = some .raw) (files : FileSystem) (options : Options)

include hPerm hLast

theorem inStep_parse_arranged (hQuiet : QuietFile loadFile) (hQuiet' : QuietFile loadFile')
    (hFile : FollowsFile .exact loadFile loadFile') (data : Bytes) :
    InStep .exact ((Loader.standard files options).parse loadFile data)
      ((Loader.mk files options order).parse loadFile' data) := by
  have hFirst := inStep_firstOf ((Loader.standard files options).quiet_decode hQuiet data)
    ((Loader.standard files options).quiet_decode hQuiet' data)
    (inStep_exact_decode hQuiet hQuiet' hFile data) Format.detectionOrder
  -- the order is no part of how a single format is read
  have hDecode : (Loader.mk files options order).decode loadFile' data =
      (Loader.standard files options).decode loadFile' data := by
    funext format
    cases format <;> rfl
  have hParse : (Loader.mk files options order).parse loadFile' data =
      firstOf ((Loader.standard files options).decode loadFile' data) order :=
    congrArg (firstOf · order) hDecode
  intro calls calls' hSame
  rw [hParse, observe_firstOf_arranged _ hQuiet' hPerm hLast (.refl _) rfl]
  exact hFirst calls calls' hSame

theorem inStep_loadPath_arranged {levels : Nat}
    (hFile : FollowsFile .exact ((Loader.standard files options).loadPart levels)
      ((Loader.mk files options order).loadPart levels)) (path : Path) :
    InStep .exact ((Loader.standard files options).loadPath levels path)
      ((Loader.mk files options order).loadPath levels path) := by
  have hFiles : (Loader.mk files options order).files = (Loader.standard files options).files := rfl
  refine inStep_loadPath_of_parse hFiles (fun data => ?_) path
  exact inStep_parse_arranged hPerm hLast files options (quietFile_loadPart _ levels)
    (quietFile_loadPart _ levels) hFile data

theorem followsFile_arranged (levels : Nat) :
    FollowsFile .exact ((Loader.standard files options).loadPart levels)
      ((Loader.mk files options order).loadPart levels) := by
  induction levels with
  | zero => exact .tooDeep
  | succ levels ih => exact .loads (inStep_loadPath_arranged hPerm hLast files options ih)

end Arranged

end Loader

/-- **The order of the formats that have a signature does not matter.** Whichever of them is tried
first, with the same order for the parts at every depth, the font or the error is the same, and so
are the calls to the resolver. -/
theorem Font.alike_of_order (files : FileSystem) (options : Options) (order : List Format)
    (hPerm : order.Perm Format.detectionOrder) (hLast : order.getLast? = some .raw) :
    let loader : Loader := ⟨files, options, order⟩
    (∀ data, (Font.parse files options data).Alike (.ofLoad (loader.parseWhole data))) ∧
      ∀ path, (Font.load files options path).Alike (.ofLoad (loader.loadWhole path)) := by
  intro loader
  have hFile := Loader.followsFile_arranged hPerm hLast files options maxNesting
  have hAlike {load other : LoadM Font} (h : InStep .exact load other) :
      (Report.ofLoad load).Alike (Report.ofLoad other) := by
    have hEq := Comparison.eq_of_exact (h #[] #[] rfl)
    exact ⟨(congrArg Prod.fst hEq).symm, (congrArg Prod.snd hEq).symm⟩
  refine ⟨fun data => hAlike ?_, fun path => hAlike ?_⟩
  · exact Loader.inStep_parse_arranged hPerm hLast files options
      (Loader.quietFile_loadPart _ maxNesting) (Loader.quietFile_loadPart _ maxNesting) hFile data
  · exact Loader.inStep_loadPath_arranged hPerm hLast files options hFile path

/-- The formats in another order, for a list of a list of two letters, and for a list of an empty
file, which leaves its own text to be read as bare glyphs. -/
theorem Font.alike_of_order_reversed :
    let letter : Font := ⟨⟨8, 1, 1⟩, .psf2, 1, [0x18], [⟨0, ['A']⟩]⟩
    let letters : Font := ⟨⟨8, 1, 1⟩, .combined, 2, [0x18, 0x18], [⟨0, ['A']⟩, ⟨1, ['A']⟩]⟩
    let find : Bytes → Option Path := fun name =>
      if name = [0x61] then some "list" else if name = [0x62] then some "letter" else some "empty"
    let files : FileSystem := fun path =>
      .contents (if path = "list" then PartList.encode [[0x62], [0x62]]
        else if path = "letter" then Psf2.encode letter else [])
    let options : Options := ⟨none, some (.ofFunction find)⟩
    let order : List Format := [.combined, .psf1, .psf2, .raw]
    let loader : Loader := ⟨files, options, order⟩
    order.Perm Format.detectionOrder ∧ order.getLast? = some .raw ∧
      (Report.ofLoad (loader.parseWhole (PartList.encode [[0x61]]))).result = .ok letters ∧
      (Report.ofLoad (loader.parseWhole (PartList.encode [[0x63]]))).result = .error .badMagic ∧
      (Report.ofLoad (loader.parseWhole (PartList.encode [[0x63]]))).journal.calls =
        #[.resolve [0x63] (some "empty"), .release "empty"] := by
  intro letter letters find files options order loader
  have hPerm : order.Perm Format.detectionOrder := by decide
  have hAlike := alike_of_order files options order hPerm rfl
  have hList : (Font.parse files options (PartList.encode [[0x61]])).result = .ok letters :=
    eq_ok_of_toOption (by decide +kernel)
  have hEmpty : (Font.parse files options (PartList.encode [[0x63]])).result =
      .error .badMagic := by
    rfl
  exact ⟨hPerm, rfl, (hAlike.1 _).result_eq.trans hList, (hAlike.1 _).result_eq.trans hEmpty,
    (hAlike.1 _).calls_eq.trans rfl⟩

end ConsoleFont
