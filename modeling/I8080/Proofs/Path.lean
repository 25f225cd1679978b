import I8080.Command.Path
import I8080.Proofs.Line

namespace I8080

theorem Path.slash_notMem_of_names {p : Path} {name : String} (mem : name ∈ p.names) : '/' ∉ name.toList := by
  obtain ⟨piece, split, rfl⟩ := List.mem_map.mp mem
  rw [String.toList_ofList]
  exact not_mem_of_mem_splitOn split

theorem Path.names_ofNames {names : List String} (nonempty : names ≠ [])
    (free : ∀ name ∈ names, '/' ∉ name.toList) : (Path.ofNames names).names = names := by
  have joined : (Path.ofNames names).text.toList = ['/'].intercalate (names.map String.toList) :=
    String.toList_intercalate
  have split : (['/'].intercalate (names.map String.toList)).splitOn '/' = names.map String.toList :=
    List.splitOn_intercalate '/' (by simpa using free) (by simpa using nonempty)
  simp [Path.names, joined, split, Function.comp_def]

theorem Path.leading_subset (p : Path) : p.leading ⊆ p.names := by
  intro name mem
  exact List.mem_reverse.mp ((List.dropWhile_sublist _).subset (List.mem_reverse.mp mem))

theorem Path.leading_eq {p : Path} {front : List String} {name : String} (names : p.names = front ++ [name])
    (moves : staysInPlace name = false) : p.leading = front ++ [name] := by
  simp [Path.leading, names, moves]

theorem splitExtension_append {stem extension : List Char} (named : stem ≠ []) (free : '.' ∉ extension) :
    splitExtension (stem ++ '.' :: extension) = (stem, some extension) := by
  have found : ((stem ++ '.' :: extension).reverse.takeWhile (· ≠ '.')).reverse = extension := by
    have undotted : ∀ c ∈ extension.reverse, decide (c ≠ '.') = true := fun c mem =>
      decide_eq_true (ne_of_mem_of_not_mem (List.mem_reverse.mp mem) free)
    rw [List.reverse_append, List.reverse_cons, List.append_assoc, List.takeWhile_append_of_pos undotted]
    simp
  have cut : (stem ++ '.' :: extension).length - extension.length - 1 = stem.length := by simp; omega
  have short : ¬extension.length = (stem ++ '.' :: extension).length := by simp; omega
  simp only [splitExtension, found, cut, List.take_left, short, named, or_self, if_false]

theorem splitExtension_of_some {name extension : List Char} (h : (splitExtension name).2 = some extension) :
    (splitExtension name).1 ≠ [] ∧ ∀ c ∈ (splitExtension name).1, c ∈ name := by
  unfold splitExtension at h ⊢
  dsimp only at h ⊢
  split_ifs at h ⊢ with none
  exact ⟨fun nil => none (.inr nil), fun c => List.mem_of_mem_take⟩

theorem staysInPlace_of_long {name : String} (long : 1 < name.length) : staysInPlace name = false := by
  refine decide_eq_false ?_
  rintro (rfl | rfl)
  · exact absurd long (by decide)
  · exact absurd long (by decide)

theorem Path.fileName?_eq {p : Path} {front : List String} {name : String} (names : p.names = front ++ [name])
    (long : 2 < name.length) : p.fileName? = some name := by
  have moves : staysInPlace name = false := staysInPlace_of_long (by omega)
  have down : name ≠ ".." := by
    rintro rfl
    exact absurd long (by decide)
  simp [Path.fileName?, Path.leading_eq names moves, down]

theorem Path.slash_notMem_of_fileName? {p : Path} {name : String} (h : p.fileName? = some name) :
    '/' ∉ name.toList := by
  obtain ⟨last, -⟩ := Option.filter_eq_some_iff.mp h
  exact Path.slash_notMem_of_names (p.leading_subset (List.mem_of_getLast? last))

/-- A file with an extension is given another one by that name. -/
theorem Path.extension?_withExtension {p : Path} {old new : String} (h : p.extension? = some old) (named : new ≠ "")
    (dotless : '.' ∉ new.toList) (slashless : '/' ∉ new.toList) : (p.withExtension new).extension? = some new := by
  obtain ⟨name, file, extension⟩ := Option.bind_eq_some_iff.mp h
  obtain ⟨cs, cut, -⟩ := Option.map_eq_some_iff.mp extension
  obtain ⟨stemmed, within⟩ := splitExtension_of_some cut
  generalize stem_eq : (splitExtension name.toList).1 = stem at stemmed within
  generalize renamed_eq : String.ofList stem ++ "." ++ new = renamed
  have text : renamed.toList = stem ++ '.' :: new.toList := by simp [← renamed_eq]
  have whole : ∀ other ∈ p.leading.dropLast ++ [renamed], '/' ∉ other.toList := by
    intro other mem
    obtain mem | mem := List.mem_append.mp mem
    · exact Path.slash_notMem_of_names (p.leading_subset ((List.dropLast_sublist _).subset mem))
    · obtain rfl := List.mem_singleton.mp mem
      have slash := Path.slash_notMem_of_fileName? file
      simp only [text, List.mem_append, List.mem_cons, not_or]
      exact ⟨fun mem => slash (within _ mem), by decide, slashless⟩
  have path : p.withExtension new = .ofNames (p.leading.dropLast ++ [renamed]) := by
    simp [Path.withExtension, file, stem_eq, renamed_eq]
  have long : 2 < renamed.length := by
    have := List.length_pos_iff.mpr stemmed
    have := List.length_pos_iff.mpr (String.toList_eq_nil_iff.not.mpr named)
    rw [← String.length_toList, text]
    simp only [List.length_append, List.length_cons]
    omega
  have last : (p.withExtension new).fileName? = some renamed := by
    rw [path]
    exact Path.fileName?_eq (Path.names_ofNames (by simp) whole) long
  simp [Path.extension?, last, text, splitExtension_append stemmed dotless]

end I8080
