import ReadonlyLint.Proofs.FixedProjects

/-!
Where the paths of a walk lead. The path of a walked file is put together from the names on the way
to it, and it leads back to the file; that of a link leads where the link does. So no two paths of a
walk lead to the same file, unless there is a link to a file that is walked as well.
-/
namespace ReadonlyLint

namespace Path

/-- A name that a file or directory can have. -/
def isName (name : String) : Bool :=
  !isVoid name && name ≠ ".." && !isLongName name && '/' ∉ name.toList

theorem parts_append_slash (directory : String) {name : String} (h : '/' ∉ name.toList) :
    parts (directory ++ "/" ++ name) = parts directory ++ [name] := by
  have hslash : "/".toList = ['/'] := rfl
  have hname : List.splitOnP (· == '/') name.toList = [name.toList] := by
    apply List.splitOnP_eq_singleton
    intro c hc
    exact beq_false_of_ne fun heq => h (heq ▸ hc)
  rw [parts_eq, parts_eq, List.splitOn_eq_splitOnP, List.splitOn_eq_splitOnP, String.toList_append,
    String.toList_append, hslash, List.append_assoc, List.singleton_append,
    List.splitOnP_append_cons _ _ (by simp), hname, List.map_append, List.map_singleton,
    String.ofList_toList]

/-- A path that ends with a slash is another path with a slash behind it. -/
theorem exists_of_ends_with_slash {path : String} (h : path.toList.getLast? = some '/') :
    ∃ front, path = front ++ "/" := by
  obtain ⟨front, hfront⟩ := List.getLast?_eq_some_iff.mp h
  refine ⟨String.ofList front, ?_⟩
  rw [← String.ofList_toList (s := path), hfront, String.ofList_append]

theorem utf8ByteSize_le_join (directory name : String) :
    directory.utf8ByteSize ≤ (join directory name).utf8ByteSize := by
  unfold join
  split
  · rw [String.utf8ByteSize_append]
    omega
  · rw [String.utf8ByteSize_append, String.utf8ByteSize_append]
    omega

theorem start_eq_slash_iff {path : String} : start path = "/" ↔ path.toList.head? = some '/' := by
  unfold start
  rcases path.toList with _ | ⟨c, cs⟩
  · simp
  · split <;> simp_all

theorem start_join {directory : String} (h : directory ≠ "") (name : String) :
    start (join directory name) = "/" ↔ start directory = "/" := by
  have hchars : directory.toList ≠ [] := fun hnil => h (String.toList_eq_nil_iff.mp hnil)
  obtain ⟨c, cs, hcons⟩ := List.exists_cons_of_ne_nil hchars
  rw [start_eq_slash_iff, start_eq_slash_iff]
  unfold join
  split <;> simp [String.toList_append, hcons]

end Path

namespace WalkRoot

theorem pathOf_concat (root : WalkRoot) (names : List String) (name : String) :
    root.pathOf (names ++ [name]) = Path.join (root.pathOf names) name := by
  unfold pathOf
  rw [List.foldl_append, List.foldl_cons, List.foldl_nil]

theorem isTooLong_of_concat {root : WalkRoot} {names : List String} {name : String}
    (h : Path.isTooLong (root.pathOf (names ++ [name])) = false) :
    Path.isTooLong (root.pathOf names) = false := by
  have hle := Path.utf8ByteSize_le_join (root.pathOf names) name
  rw [pathOf_concat] at h
  simp only [Path.isTooLong, decide_eq_false_iff_not] at h ⊢
  omega

end WalkRoot

namespace Directory

/-! ## Following parts -/

/-- Parts are followed one list after the other. -/
theorem follow_append_eq_ok_iff {d : Directory} {a b start place : List String} :
    d.follow (a ++ b) start = .ok place ↔
      ∃ between, d.follow a start = .ok between ∧ d.follow b between = .ok place := by
  induction a generalizing start with
  | nil => simp [follow]
  | cons part a ih =>
    rw [List.cons_append, follow, follow]
    split
    · simp
    · split
      · exact ih
      · split
        · split
          · simp
          · exact ih
        · split
          · simp
          · dsimp only
            split
            · exact ih
            · simp

/-- What a name in a directory leads to, if a path leads to the directory. -/
theorem locate_join {d : Directory} {directory name : String} {place : List String}
    (hplace : d.locate directory = .ok place) (hname : Path.isName name = true)
    (hdirectory : d.isDirectory place = true)
    (hthere : (d.isFile (d.resolve (place ++ [name])) ||
      d.isDirectory (d.resolve (place ++ [name]))) = true)
    (hlength : Path.isTooLong (Path.join directory name) = false) :
    d.locate (Path.join directory name) = .ok (d.resolve (place ++ [name])) := by
  simp only [Path.isName, Bool.and_eq_true, Bool.not_eq_true', decide_eq_true_eq] at hname
  obtain ⟨⟨⟨hvoid, hup⟩, hshort⟩, hslash⟩ := hname
  have hstep : d.follow [name] place = .ok (d.resolve (place ++ [name])) := by
    simp only [follow, hdirectory, hvoid, hup, hshort, hthere, Bool.not_true, Bool.false_eq_true,
      if_true, if_false]
  unfold locate at hplace
  split at hplace
  · cases hplace
  rename_i hempty
  split at hplace
  · cases hplace
  split at hplace
  · cases hplace
  rename_i hstart
  have hjoin : Path.join directory name ≠ "" := by
    intro hnil
    have hle := Path.utf8ByteSize_le_join directory name
    rw [hnil, String.utf8ByteSize_empty, Nat.le_zero, String.utf8ByteSize_eq_zero_iff] at hle
    exact hempty hle
  unfold locate
  rw [if_neg hjoin, if_neg (by simp [hlength]),
    if_neg (fun h => hstart ((Path.start_join hempty name).mp h))]
  by_cases hends : directory.toList.getLast? = some '/'
  · -- the empty part behind the slash gives way to the name
    obtain ⟨front, rfl⟩ := Path.exists_of_ends_with_slash hends
    have hparts := Path.parts_append_slash front (by simp : '/' ∉ "".toList)
    rw [String.append_empty] at hparts
    rw [hparts, follow_append_eq_ok_iff] at hplace
    obtain ⟨between, hbetween, hlast⟩ := hplace
    have hsame : between = place := by
      simp only [follow] at hlast
      split at hlast
      · cases hlast
      · simpa [Path.isVoid] using hlast
    subst hsame
    rw [Path.join, if_pos (by simp), Path.parts_append_slash front hslash]
    exact follow_append_eq_ok_iff.mpr ⟨between, hbetween, hstep⟩
  · rw [Path.join, if_neg (by simp [hempty, hends]), Path.parts_append_slash directory hslash]
    exact follow_append_eq_ok_iff.mpr ⟨place, hplace, hstep⟩

/-! ## Walked files -/

/-- No file or link is a directory at the same time, and the names on the way to it are names. -/
structure WellFormed (d : Directory) : Prop where
  leaves : ∀ entry ∈ d.entries, d.isDirectory entry = false
  names : ∀ entry ∈ d.entries, ∀ name ∈ entry, Path.isName name = true

instance (d : Directory) : Decidable d.WellFormed :=
  decidable_of_iff ((∀ entry ∈ d.entries, d.isDirectory entry = false) ∧
      ∀ entry ∈ d.entries, ∀ name ∈ entry, Path.isName name = true)
    ⟨fun h => ⟨h.1, h.2⟩, fun h => ⟨h.leaves, h.names⟩⟩

/-- A place on the way to a file or a link is a directory. -/
theorem isDirectory_of_append_mem {d : Directory} {place rest : List String}
    (h : place ++ rest ∈ d.entries) (hrest : rest ≠ []) : d.isDirectory place = true := by
  have hpos := List.length_pos_iff.mpr hrest
  unfold isDirectory
  rw [Bool.or_eq_true]
  refine .inr (List.any_eq_true.mpr ⟨place ++ rest, h, ?_⟩)
  simp [List.isPrefixOf_iff_prefix]
  omega

theorem resolve_eq_self_or_mem (d : Directory) (place : List String) :
    d.resolve place = place ∨ place ∈ d.entries := by
  unfold resolve
  rcases hlink : d.links.lookup place with _ | target
  · exact .inl rfl
  · have hsome : (d.links.lookup place).isSome = true := by rw [hlink]; rfl
    obtain ⟨link, hmem, hplace⟩ := List.lookup_isSome_iff.mp hsome
    rw [eq_of_beq hplace]
    exact .inr (List.mem_append_right _ (List.mem_map_of_mem hmem))

section Walk

variable {d : Directory} (hd : d.WellFormed) {root : WalkRoot}
include hd

/-- A directory is no link. -/
theorem WellFormed.resolve_of_isDirectory {place : List String}
    (h : d.isDirectory place = true) : d.resolve place = place := by
  rcases d.resolve_eq_self_or_mem place with hself | hmem
  · exact hself
  · rw [hd.leaves place hmem] at h
    cases h

variable (hroot : d.locate root.path = .ok root.place)
include hroot

/-- The path of a directory on the way to a walked file leads there. -/
theorem WellFormed.locate_directory {names rest : List String} (hrest : rest ≠ [])
    (hentry : root.place ++ names ++ rest ∈ d.entries)
    (hlength : Path.isTooLong (root.pathOf names) = false) :
    d.locate (root.pathOf names) = .ok (root.place ++ names) := by
  induction names using List.reverseRecOn generalizing rest with
  | nil => rw [List.append_nil]; exact hroot
  | append_singleton names name ih =>
    have hbelow : root.place ++ names ++ (name :: rest) ∈ d.entries := by simpa using hentry
    have hname : Path.isName name = true := hd.names _ hbelow name (by simp)
    have hplace := ih (List.cons_ne_nil name rest) hbelow (WalkRoot.isTooLong_of_concat hlength)
    have hdirectory := isDirectory_of_append_mem hbelow (List.cons_ne_nil name rest)
    have hnext := isDirectory_of_append_mem hentry hrest
    have hself := hd.resolve_of_isDirectory hnext
    rw [← List.append_assoc] at hnext hself ⊢
    rw [WalkRoot.pathOf_concat] at hlength ⊢
    rw [locate_join hplace hname hdirectory (by rw [hself, hnext, Bool.or_true]) hlength, hself]

/-- The path of a walked file leads to it, and that of a link to where the link does. -/
theorem WellFormed.locate_entry {names : List String} (hne : names ≠ [])
    (hentry : root.place ++ names ∈ d.entries)
    (hfile : d.isFile (d.resolve (root.place ++ names)) = true)
    (hlength : Path.isTooLong (root.pathOf names) = false) :
    d.locate (root.pathOf names) = .ok (d.resolve (root.place ++ names)) := by
  obtain ⟨front, name, rfl⟩ := (List.eq_nil_or_concat' names).resolve_left hne
  have hname : Path.isName name = true := hd.names _ hentry name (by simp)
  rw [← List.append_assoc] at hentry hfile ⊢
  have hplace := hd.locate_directory hroot (List.cons_ne_nil name []) hentry
    (WalkRoot.isTooLong_of_concat hlength)
  have hdirectory := isDirectory_of_append_mem hentry (List.cons_ne_nil name [])
  rw [WalkRoot.pathOf_concat] at hlength ⊢
  exact locate_join hplace hname hdirectory (by rw [hfile, Bool.true_or]) hlength

end Walk

/-- The names that are kept of an entry below a root lead back to it. -/
theorem append_of_below {place entry names : List String}
    (h : (if place.length < entry.length && place.isPrefixOf entry then
      some (entry.drop place.length) else none) = some names) :
    names ≠ [] ∧ place ++ names = entry := by
  split at h
  · rename_i hbelow
    cases h
    rw [Bool.and_eq_true, List.isPrefixOf_iff_prefix, decide_eq_true_eq] at hbelow
    obtain ⟨hlength, rest, rfl⟩ := hbelow
    rw [List.drop_left]
    refine ⟨?_, rfl⟩
    rintro rfl
    simp at hlength
  · cases h

theorem mem_of_mem_filesBelow {d : Directory} {root : WalkRoot} {names : List String}
    (h : names ∈ d.filesBelow root) :
    names ≠ [] ∧ root.place ++ names ∈ d.entries ∧
      d.isFile (d.resolve (root.place ++ names)) = true := by
  unfold filesBelow at h
  rw [List.mem_mergeSort] at h
  obtain ⟨hbelow, hkept⟩ := List.mem_filter.mp h
  obtain ⟨entry, hentry, hnames⟩ := List.mem_filterMap.mp hbelow
  obtain ⟨hne, happend⟩ := append_of_below hnames
  exact ⟨hne, happend ▸ hentry, (Bool.and_eq_true_iff.mp hkept).1⟩

theorem nodup_filesBelow {d : Directory} (h : d.entries.Nodup) (root : WalkRoot) :
    (d.filesBelow root).Nodup := by
  unfold filesBelow
  refine (List.mergeSort_perm _ _).nodup_iff.mpr (List.Nodup.filter _ ?_)
  rw [List.Nodup, List.pairwise_filterMap]
  refine h.imp fun hne names hnames others hothers heq => hne ?_
  rw [← (append_of_below hnames).2, ← (append_of_below hothers).2, heq]

/-- The sources below a root are the root itself or files that are walked, and no path to one of them
is too long. -/
theorem cases_of_sources? {d : Directory} {patterns : List String} {root : String}
    {paths : List String} (h : d.sources? patterns root = some paths) :
    ∃ place keep, d.locate root = .ok place ∧ (paths = [root].filter keep ∨
      paths = ((d.filesBelow { path := root, place }).map (WalkRoot.pathOf { path := root, place })).filter
        fun path => !Path.isTooLong path && keep path) := by
  unfold sources? at h
  obtain ⟨place, hplace, h⟩ := Option.bind_eq_some_iff.mp h
  have hroot : d.locate root = .ok place := by
    rcases hlocate : d.locate root with cause | found
    · rw [hlocate] at hplace
      cases hplace
    · rw [hlocate] at hplace
      cases hplace
      rfl
  dsimp only at h
  split at h
  · cases h
    exact ⟨place, _, hroot, .inl rfl⟩
  · split at h
    · cases h
      exact ⟨place, _, hroot, .inr rfl⟩
    · cases h

/-- No two of the sources that are found below a root lead to the same place, if no two files or links
of the directory do. -/
theorem WellFormed.separates_sources {d : Directory} (hd : d.WellFormed)
    (hdistinct : (d.entries.map d.resolve).Nodup) {patterns : List String} {root : String}
    {paths : List String} (h : d.sources? patterns root = some paths) : d.Separates paths := by
  obtain ⟨place, keep, hroot, rfl | rfl⟩ := cases_of_sources? h
  · exact (List.pairwise_singleton _ _).filter _
  · rw [Separates, List.filter_map, List.pairwise_map]
    refine ((nodup_filesBelow hdistinct.of_map _).filter _).imp_of_mem ?_
    intro names others hnames hothers hne other hlocate hother
    obtain ⟨hmem, hkept⟩ := List.mem_filter.mp hnames
    obtain ⟨hmem', hkept'⟩ := List.mem_filter.mp hothers
    simp only [Function.comp_apply, Bool.and_eq_true, Bool.not_eq_true'] at hkept hkept'
    obtain ⟨hsome, hentry, hfile⟩ := mem_of_mem_filesBelow hmem
    obtain ⟨hsome', hentry', hfile'⟩ := mem_of_mem_filesBelow hmem'
    rw [hd.locate_entry hroot hsome hentry hfile hkept.1] at hlocate
    rw [hd.locate_entry hroot hsome' hentry' hfile' hkept'.1, ← hlocate] at hother
    injection hother with hsame
    exact hne (List.append_cancel_left
      (List.inj_on_of_nodup_map hdistinct hentry' hentry hsame)).symm

end Directory

end ReadonlyLint
