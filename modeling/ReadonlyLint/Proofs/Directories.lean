import Mathlib.Data.String.Basic
import ReadonlyLint.Project.Fix

/-!
What a write to a file leaves unchanged. New contents of a file that is there change no other file,
and no path leads elsewhere because of them: which places hold files, which are directories and where
the links lead is as before (`Directory.SamePlaces`). So what is read through a path to another file is as before too.
-/
namespace ReadonlyLint

/-! ## Parts of a path -/

section Split

open String

theorem splitOnAux_singleton (c : Char) (l m r : List Char) (found : List String) :
    splitOnAux (ofList (l ++ m ++ r)) (ofList [c]) ⟨utf8Len l⟩ ⟨utf8Len (l ++ m)⟩ 0 found =
      found.reverse ++ (List.splitOnPPrepend (· == c) r m.reverse).map ofList := by
  have hsep : Pos.Raw.get (ofList [c]) 0 = c := get_of_valid [] [c]
  have hnext : Pos.Raw.next (ofList [c]) 0 = ⟨utf8Len [c]⟩ := next_of_valid [] c []
  have hstop : Pos.Raw.atEnd (ofList [c]) ⟨utf8Len [c]⟩ = true := (atEnd_of_valid [c] []).mpr rfl
  induction r generalizing l m found with
  | nil =>
    have hend := (atEnd_of_valid (l ++ m) []).mpr rfl
    have htext := extract_of_valid l m []
    rw [splitOnAux, if_pos hend]
    dsimp only
    rw [utf8Len_append, htext]
    simp
  | cons x r ih =>
    have hmore : ¬ Pos.Raw.atEnd (ofList (l ++ m ++ x :: r)) ⟨utf8Len (l ++ m)⟩ = true := by
      rw [atEnd_of_valid]
      exact List.cons_ne_nil x r
    have hget : Pos.Raw.get (ofList (l ++ m ++ x :: r)) ⟨utf8Len (l ++ m)⟩ = x :=
      get_of_valid (l ++ m) (x :: r)
    have hadvance : Pos.Raw.next (ofList (l ++ m ++ x :: r)) ⟨utf8Len (l ++ m)⟩ =
        ⟨utf8Len (l ++ m ++ [x])⟩ := by
      rw [next_of_valid, utf8Len_append (l ++ m), utf8Len_cons, utf8Len_nil, Nat.zero_add]
    have hsame : l ++ m ++ [x] ++ r = l ++ m ++ x :: r := by simp
    rw [splitOnAux, if_neg hmore, hget, hsep]
    dsimp only
    rw [hnext, if_pos hstop]
    by_cases hx : x = c
    · -- a part ends here, and the next one starts behind the separator
      have htext := extract_of_valid l m (x :: r)
      have hback : Pos.Raw.unoffsetBy ⟨utf8Len (l ++ m ++ [x])⟩ ⟨utf8Len [c]⟩ =
          ⟨utf8Len l + utf8Len m⟩ := by
        simp only [Pos.Raw.unoffsetBy, utf8Len_append, hx, Pos.Raw.mk.injEq]
        omega
      have hrest := ih (l ++ m ++ [x]) [] (ofList m :: found)
      rw [List.append_nil, hsame] at hrest
      rw [if_pos (beq_iff_eq.mpr hx), hadvance, hback, htext, hrest,
        List.splitOnPPrepend_cons_eq_if]
      simp [hx]
    · have hzero : Pos.Raw.unoffsetBy ⟨utf8Len (l ++ m)⟩ 0 = ⟨utf8Len (l ++ m)⟩ := by
        simp [Pos.Raw.unoffsetBy]
      have hrest := ih l (m ++ [x]) found
      rw [← List.append_assoc, hsame] at hrest
      rw [if_neg (by simpa using hx), hzero, hadvance, hrest, List.splitOnPPrepend_cons_eq_if]
      simp [hx]

theorem splitOn_singleton (c : Char) (s : String) :
    s.splitOn (ofList [c]) = (s.toList.splitOn c).map ofList := by
  have hsplit := splitOnAux_singleton c [] [] s.toList []
  rw [splitOn, if_neg (by simp)]
  simpa [List.splitOn_eq_splitOnP] using hsplit

end Split

namespace Path

/-- The parts of a path are the runs of characters between its slashes. -/
theorem parts_eq (path : String) : parts path = (path.toList.splitOn '/').map String.ofList :=
  splitOn_singleton '/' path

theorem extension?_eq (path : String) :
    extension? path = (fileName? path).bind fun name =>
      match ((name.toList.splitOn '.').map String.ofList).reverse with
      | last :: stem@(_ :: _) => if stem = [""] then none else some last
      | _ => none := by
  have hdots : ∀ name : String, name.splitOn "." = (name.toList.splitOn '.').map String.ofList :=
    splitOn_singleton '.'
  simp only [← hdots]
  rfl

end Path

namespace Directory

/-! ## New contents -/

theorem lookup_map {α β γ : Type} [BEq α] [LawfulBEq α] (f : α → β → γ) (l : List (α × β)) (a : α) :
    (l.map fun p => (p.1, f p.1 p.2)).lookup a = (l.lookup a).map (f a) := by
  induction l with
  | nil => rfl
  | cons p l ih =>
    obtain ⟨key, value⟩ := p
    rw [List.map_cons, List.lookup_cons, List.lookup_cons, ih]
    by_cases hkey : a = key
    · simp [hkey]
    · simp [beq_false_of_ne hkey]

section Put

variable {d : Directory} {place : List String} (h : d.isFile place = true) (content : ByteArray)
include h

theorem put_of_isFile : d.put place content =
    { d with files := d.files.map fun p => (p.1, if p.1 = place then content else p.2) } := by
  unfold put
  rw [if_pos h]

theorem content?_put (other : List String) :
    (d.put place content).content? other =
      if other = place then some content else d.content? other := by
  unfold content?
  rw [put_of_isFile h, lookup_map fun file old => if file = place then content else old]
  by_cases hother : other = place
  · subst hother
    obtain ⟨old, hold⟩ := Option.isSome_iff_exists.mp h
    have hlookup : d.files.lookup other = some old := hold
    simp [hlookup]
  · simp [hother]

end Put

/-- The same places hold files in both, the same are directories, and the links lead to the same
places. -/
structure SamePlaces (d d' : Directory) : Prop where
  file : ∀ place, d'.isFile place = d.isFile place
  directory : ∀ place, d'.isDirectory place = d.isDirectory place
  resolve : ∀ place, d'.resolve place = d.resolve place

theorem SamePlaces.refl (d : Directory) : d.SamePlaces d :=
  ⟨fun _ => rfl, fun _ => rfl, fun _ => rfl⟩

theorem SamePlaces.trans {d d' d'' : Directory} (h : d.SamePlaces d') (h' : d'.SamePlaces d'') :
    d.SamePlaces d'' :=
  ⟨fun place => (h'.file place).trans (h.file place),
    fun place => (h'.directory place).trans (h.directory place),
    fun place => (h'.resolve place).trans (h.resolve place)⟩

theorem samePlaces_put {d : Directory} {place : List String} (h : d.isFile place = true)
    (content : ByteArray) : d.SamePlaces (d.put place content) := by
  refine ⟨fun other => ?_, fun other => ?_, fun other => ?_⟩
  · unfold isFile
    rw [content?_put h]
    by_cases hother : other = place
    · rw [if_pos hother, hother]
      exact h.symm
    · rw [if_neg hother]
  · have hentries : (d.put place content).entries = d.entries := by
      unfold entries
      rw [put_of_isFile h, List.map_map]
      rfl
    unfold isDirectory
    rw [hentries]
  · unfold resolve
    rw [put_of_isFile h]

namespace SamePlaces

variable {d d' : Directory} (h : d.SamePlaces d')
include h

theorem follow (parts place : List String) : d'.follow parts place = d.follow parts place := by
  induction parts generalizing place with
  | nil => rw [Directory.follow, Directory.follow]
  | cons part parts ih =>
    simp only [Directory.follow, h.directory, h.file, h.resolve, ih]

/-- Every path leads to the same place. -/
theorem locate (path : String) : d'.locate path = d.locate path := by
  unfold Directory.locate
  rw [h.follow]

end SamePlaces

/-! ## Reading and writing -/

theorem read_of_locate {d : Directory} {path : String} {place : List String}
    (hplace : d.locate path = .ok place) {content : ByteArray}
    (hcontent : d.content? place = some content) :
    d.read path = ((String.fromUTF8? content).map .ok).getD (.error .notText) := by
  unfold read
  rw [hplace]
  simp only [bind, Except.bind, hcontent]

theorem isFile_of_content? {d : Directory} {place : List String} {content : ByteArray}
    (h : d.content? place = some content) : d.isFile place = true := by
  rw [isFile, h]
  rfl

theorem fromUTF8?_toUTF8 (text : String) : String.fromUTF8? text.toUTF8 = some text :=
  dif_pos text.isValidUTF8

/-- A path is read as a text just when it leads to a file with that text. -/
theorem read_eq_ok_iff {d : Directory} {path source : String} :
    d.read path = .ok source ↔
      ∃ place, d.locate path = .ok place ∧ d.content? place = some source.toUTF8 := by
  constructor
  · intro h
    rcases hplace : d.locate path with cause | place
    · simp [read, hplace, bind, Except.bind] at h
    · refine ⟨place, rfl, ?_⟩
      rcases hcontent : d.content? place with _ | content
      · simp [read, hplace, hcontent, bind, Except.bind] at h
      · rw [read_of_locate hplace hcontent, String.fromUTF8?] at h
        split at h
        · cases h
          rfl
        · cases h
  · rintro ⟨place, hplace, hcontent⟩
    rw [read_of_locate hplace hcontent, fromUTF8?_toUTF8]
    rfl

/-- What is read through a path to another place is as before. -/
theorem read_put_of_ne {d : Directory} {place : List String} (h : d.isFile place = true)
    (content : ByteArray) {path : String} (hne : d.locate path ≠ .ok place) :
    (d.put place content).read path = d.read path := by
  unfold read
  rw [(samePlaces_put h content).locate]
  rcases hother : d.locate path with cause | other
  · rfl
  · have hplace : other ≠ place := fun heq => hne (by rw [hother, heq])
    simp only [bind, Except.bind, content?_put h, if_neg hplace]

/-- A text for a path to a file becomes the contents of the file. -/
theorem write_of_locate {d : Directory} {path : String} {place : List String}
    (hplace : d.locate path = .ok place) (hfile : d.isFile place = true) (text : String) :
    d.write path text = .ok (d.put place text.toUTF8) := by
  have htarget : d.target path = .ok place := by
    unfold target
    rw [hplace]
    exact if_pos hfile
  unfold write
  rw [htarget]
  rfl

end Directory

end ReadonlyLint
