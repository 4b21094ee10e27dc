import Ifj24.Files.Tree

/-!
Where files are. A path that can be followed leads to the place that its names spell, whatever
directories there are; so two paths with different last names never mean the same file. Each
operation of the machine leaves all files as they are but for the one it writes.
-/

open List

namespace Ifj24

namespace Path

structure Proper (name : Bytes) : Prop where
  ne_nil : name ≠ []
  not_mem : slash ∉ name
  ne_dot : name ≠ Bytes.ofString "."
  ne_dots : name ≠ Bytes.ofString ".."

theorem Proper.append (hfront : slash ∉ front)
    (hback : slash ∉ back) (hlong : 2 < back.length) : Proper (front ++ back) := by
  have hlen : 2 < (front ++ back).length := by
    rw [length_append]
    omega
  refine ⟨?_, ?_, ?_, ?_⟩
  · exact ne_nil_of_length_pos (by omega)
  · exact fun hmem => (mem_append.mp hmem).elim hfront hback
  · exact fun heq => absurd (congrArg List.length heq ▸ hlen) (by decide)
  · exact fun heq => absurd (congrArg List.length heq ▸ hlen) (by decide)

/-- The place that names lead to from a place, if all directories on the way are there. -/
def follow : List Bytes → List Bytes → List Bytes
  | place, [] => place
  | place, name :: rest =>
    if name = Bytes.ofString "." then follow place rest
    else if name = Bytes.ofString ".." then follow place.dropLast rest
    else follow (place ++ [name]) rest

def place (here : List Bytes) (path : Bytes) : List Bytes :=
  follow (if isRooted path then [] else here) (names path)

theorem follow_append (start front back : List Bytes) :
    follow start (front ++ back) = follow (follow start front) back := by
  induction front generalizing start with
  | nil => rfl
  | cons name front ih =>
    rw [cons_append, follow, follow]
    split
    · exact ih _
    split
    · exact ih _
    · exact ih _

variable {name : Bytes}

theorem follow_proper (h : Proper name) (start : List Bytes) :
    follow start [name] = start ++ [name] := by
  rw [follow, if_neg h.ne_dot, if_neg h.ne_dots, follow]

theorem names_proper (h : Proper name) : names name = [name] := by
  have hsplit : Bytes.splitOn slash name = [name] :=
    splitOnP_eq_singleton fun b hb => beq_false_of_ne fun heq => h.not_mem (heq ▸ hb)
  rw [names, hsplit, filter_cons_of_pos (by simpa using h.ne_nil), filter_nil]

theorem names_append_slash (front back : Bytes) :
    names (front ++ slash :: back) = names front ++ names back := by
  have hsplit : Bytes.splitOn slash (front ++ slash :: back) =
      Bytes.splitOn slash front ++ Bytes.splitOn slash back :=
    splitOnP_append_cons front back (by decide)
  rw [names, hsplit, filter_append]
  rfl

theorem join_append (part : Bytes) (parts : List Bytes) (name : Bytes) :
    Bytes.join "/" (part :: parts ++ [name]) = Bytes.join "/" (part :: parts) ++ slash :: name := by
  have hslash : Bytes.ofString "/" = [slash] := rfl
  unfold Bytes.join
  rw [hslash]
  induction parts generalizing part with
  | nil => simp
  | cons next parts ih =>
    have hrest := ih next
    simp only [cons_append, intercalate_cons_cons] at hrest ⊢
    rw [hrest]
    simp

theorem names_join_append (h : Proper name) (parts : List Bytes) :
    names (Bytes.join "/" (parts ++ [name])) = names (Bytes.join "/" parts) ++ [name] := by
  cases parts with
  | nil =>
    have hsingle : Bytes.join "/" [name] = name := by simp [Bytes.join]
    rw [nil_append, hsingle, names_proper h]
    rfl
  | cons part parts => rw [join_append, names_append_slash, names_proper h]

theorem exists_names_clean (h : Proper name) (parts : List Bytes) :
    ∃ front, names (clean (Bytes.join "/" (parts ++ [name]))) = front ++ [name] := by
  have hstep : ∀ rooted done, step rooted done name = name :: done := fun rooted done => by
    unfold step
    rw [if_neg h.ne_dot, if_neg h.ne_dots]
  unfold clean ofNames
  dsimp only
  rw [names_join_append h, foldl_append, foldl_cons, foldl_nil, hstep,
    reverse_cons]
  split
  · exact ⟨_, (names_append_slash [] _).trans (names_join_append h _)⟩
  · rw [if_neg (by simp), names_join_append h]
    exact ⟨_, rfl⟩

theorem exists_names_join (h : Proper name) (parts : List Bytes) :
    ∃ front, names (join (parts ++ [name])) = front ++ [name] := by
  have hfilter : (parts ++ [name]).filter (fun p => !p.isEmpty) =
      parts.filter (fun p => !p.isEmpty) ++ [name] := by
    rw [filter_append, filter_cons_of_pos (by simpa using h.ne_nil), filter_nil]
  unfold join
  rw [hfilter]
  split
  · rename_i hnil
    simp at hnil
  · exact exists_names_clean h _

/-- A path that ends in a name means a place of that name. -/
theorem getLast?_place_join (h : Proper name) (here : List Bytes) (parts : List Bytes) :
    (place here (join (parts ++ [name]))).getLast? = some name := by
  obtain ⟨front, hnames⟩ := exists_names_join h parts
  rw [place, hnames, follow_append, follow_proper h, getLast?_append]
  rfl

end Path

namespace FileTree

theorem walk_eq_ok {t : FileTree}
    (h : t.walk start names = .ok found) : found = Path.follow start names := by
  induction names generalizing start with
  | nil =>
    cases h
    rfl
  | cons name rest ih =>
    rw [walk] at h
    rw [Path.follow]
    split at h
    · cases h
    · cases h
    · split at h
      · cases h
      split at h
      · rw [if_pos ‹_›]
        exact ih h
      split at h
      · rw [if_neg ‹_›, if_pos ‹_›]
        exact ih h
      · rw [if_neg ‹_›, if_neg ‹_›]
        exact ih h

theorem resolve_eq_ok {t : FileTree} {path : Bytes}
    (h : t.resolve here path = .ok found) : found = Path.place here path := by
  unfold resolve at h
  split at h
  · cases h
  split at h
  · cases h
  · rw [walk_eq_ok h, Path.follow_append, ← Path.place]
    -- The name that stands for a slash at the end leads nowhere else.
    split
    · rfl
    · rfl

variable {t : FileTree}

theorem lookup_insert (entries : List (List Bytes × FileEntry)) :
    (insert p e entries).lookup q = if q = p then some e else entries.lookup q := by
  induction entries with
  | nil =>
    rw [insert, lookup_cons]
    by_cases h : q = p
    · simp [h]
    · simp [h, beq_false_of_ne h]
  | cons entry rest ih =>
    rw [insert]
    by_cases h : q = p
    · subst h
      rw [if_pos rfl] at ih ⊢
      split
      · simp
      split
      · simp
      · rename_i hne _
        rw [lookup_cons, beq_false_of_ne (.symm hne), ih]
    · rw [if_neg h] at ih ⊢
      split
      · rename_i heq
        rw [lookup_cons, lookup_cons, heq, beq_false_of_ne h]
      split
      · rw [lookup_cons, beq_false_of_ne h]
      · rw [lookup_cons, ih, lookup_cons]

theorem lookup_filter_ne {x : FileEntry} {entries : List (List Bytes × FileEntry)}
    (h : (entries.filter fun (r, _) => r != p).lookup q = some x) : entries.lookup q = some x := by
  induction entries with
  | nil => cases h
  | cons entry rest ih =>
    obtain ⟨r, y⟩ := entry
    by_cases hr : r = p
    · rw [filter_cons_of_neg (by simpa using hr)] at h
      have hq : q ≠ r := by
        rintro rfl
        obtain ⟨front, back, hsplit, -⟩ := lookup_eq_some_iff.mp h
        have hmem : (q, x) ∈ rest.filter fun (r, _) => r != p := hsplit ▸ by simp
        simp [hr] at hmem
      rw [lookup_cons, beq_false_of_ne hq]
      exact ih h
    · rw [filter_cons_of_pos (by simpa using hr), lookup_cons] at h
      rw [lookup_cons]
      split
      · rename_i heq
        rwa [heq] at h
      · rename_i heq
        rw [heq] at h
        exact ih h

def Holds (t : FileTree) (place : List Bytes) (content : Bytes) : Prop :=
  ∃ time, t.get? place = some (.file content time)

theorem get?_of_ne_nil (hq : q ≠ []) : t.get? q = t.entries.lookup q :=
  if_neg (by simpa using hq)

variable {content : Bytes}

theorem Holds.ne_nil (h : t.Holds q content) : q ≠ [] := by
  rintro rfl
  obtain ⟨time, hget⟩ := h
  cases hget

theorem Holds.of_set (h : (t.set p e).Holds q content) :
    (q = p ∧ ∃ time, e = .file content time) ∨ t.Holds q content := by
  have hq := h.ne_nil
  obtain ⟨time, hget⟩ := h
  rw [get?_of_ne_nil hq, set, lookup_insert] at hget
  split at hget
  · exact .inl ⟨‹_›, time, Option.some.inj hget⟩
  · exact .inr ⟨time, (get?_of_ne_nil hq).trans hget⟩

theorem Holds.of_erase (h : (t.erase p).Holds q content) : t.Holds q content := by
  have hq := h.ne_nil
  obtain ⟨time, hget⟩ := h
  rw [get?_of_ne_nil hq] at hget
  exact ⟨time, (get?_of_ne_nil hq).trans (lookup_filter_ne hget)⟩

end FileTree

namespace Machine

/-- The files of the second machine are files of the first, but for those that `P` allows. -/
structure Grows (P : List Bytes → Bytes → Prop) (s s' : Machine) : Prop where
  here : s'.here = s.here
  held : ∀ place content, s'.files.Holds place content → s.files.Holds place content ∨ P place content

variable {P Q : List Bytes → Bytes → Prop} {s s' : Machine}

theorem Grows.refl (s : Machine) : Grows P s s := ⟨rfl, fun _ _ h => .inl h⟩

theorem Grows.trans (h : Grows P s s') (h' : Grows P s' s'') : Grows P s s'' where
  here := h'.here.trans h.here
  held place content hheld := (h'.held place content hheld).elim (h.held place content) .inr

theorem Grows.imp (h : Grows P s s') (hPQ : ∀ place content, P place content → Q place content) :
    Grows Q s s' where
  here := h.here
  held place content hheld := (h.held place content hheld).imp_right (hPQ place content)

def Nothing : List Bytes → Bytes → Prop := fun _ _ => False

theorem Grows.of_nothing (h : Grows Nothing s s') : Grows P s s' := h.imp fun _ _ => False.elim

variable {path content : Bytes}

theorem readFile_eq_ok (h : s.readFile path = .ok content) :
    s.files.Holds (Path.place s.here path) content := by
  unfold readFile at h
  split at h
  · cases h
  · rename_i place hplace
    rw [← FileTree.resolve_eq_ok hplace]
    split at h
    · cases h
    · cases h
    · rename_i found time hget
      cases h
      exact ⟨time, hget⟩

theorem writeFile_eq_ok (h : s.writeFile path content = .ok s') :
    s' = { s with files := s.files.set (Path.place s.here path) (.file content s.clock) } := by
  unfold writeFile at h
  split at h
  · cases h
  · rename_i place hplace
    rw [← FileTree.resolve_eq_ok hplace]
    split at h
    · cases h
    · cases h
    · cases h
      rfl

theorem grows_writeFile (h : s.writeFile path content = .ok s') :
    Grows (fun q _ => q = Path.place s.here path) s s' := by
  obtain rfl := writeFile_eq_ok h
  refine ⟨rfl, fun q data hheld => ?_⟩
  rcases hheld.of_set with ⟨hq, -⟩ | hheld
  · exact .inr hq
  · exact .inl hheld

theorem holds_writeFile (h : s.writeFile path content = .ok s')
    (hheld : s'.files.Holds (Path.place s'.here path) data) : data = content := by
  obtain rfl := writeFile_eq_ok h
  have hplace := hheld.ne_nil
  obtain ⟨time, hget⟩ := hheld
  rw [FileTree.get?_of_ne_nil hplace, FileTree.set, FileTree.lookup_insert, if_pos rfl] at hget
  cases hget
  rfl

theorem grows_makeDirectory (h : s.makeDirectory path = .ok s') : Grows Nothing s s' := by
  unfold makeDirectory at h
  split at h
  · cases h
  · split at h
    · cases h
    · cases h
    · cases h
      refine ⟨rfl, fun q data hheld => hheld.of_set.symm.imp_right ?_⟩
      rintro ⟨-, time, heq⟩
      cases heq

theorem makeTemporary_eq_ok (h : s.makeTemporary directory front back = .ok (path, s')) :
    ∃ n, path = Path.join [directory, front ++ Bytes.ofNat n ++ back] ∧
      Grows (fun q _ => q.getLast? = some (front ++ Bytes.ofNat n ++ back)) s s' := by
  unfold makeTemporary at h
  split at h
  · cases h
  · dsimp only at h
    split at h
    · cases h
    · split at h
      · cases h
      · cases h
        refine ⟨_, rfl, rfl, fun q data hheld => hheld.of_set.symm.imp_right ?_⟩
        rintro ⟨rfl, -⟩
        exact getLast?_concat

theorem grows_rename (h : s.rename source target = .ok s') :
    Grows (fun q data => q = Path.place s.here target ∧
      s.files.Holds (Path.place s.here source) data) s s' := by
  unfold rename at h
  split at h
  · cases h
  · cases h
  · rename_i a b ha hb
    rw [← FileTree.resolve_eq_ok ha, ← FileTree.resolve_eq_ok hb]
    split at h
    · cases h
    · cases h
    · cases h
    · rename_i e hget _ _
      cases h
      refine ⟨rfl, fun q data hheld => ?_⟩
      -- A file at the target is the one that was at the source.
      rcases hheld.of_set with ⟨rfl, time, rfl⟩ | hheld
      · exact .inr ⟨rfl, time, hget⟩
      · exact .inl hheld.of_erase

theorem grows_remove (h : s.remove path = .ok s') : Grows Nothing s s' := by
  have herase : ∀ place, Grows Nothing s { s with files := s.files.erase place } := fun place =>
    ⟨rfl, fun _ _ hheld => .inl hheld.of_erase⟩
  unfold remove at h
  split at h
  · cases h
  · split at h
    · cases h
    · split at h
      · cases h
        exact herase _
      · cases h
    · cases h
      exact herase _

section

variable {f : Machine → Except FileError Machine}

theorem run_bind (x : StateM Machine α) (g : α → StateM Machine β) (s : Machine) :
    (x >>= g) s = g (x s).1 (x s).2 := rfl

theorem run_stat (path : Bytes) (s : Machine) :
    (Surroundings.stat path : StateM Machine (Except FileError FileInfo)) s = (s.stat path, s) := rfl

theorem change_cases (hx : x = change f) (s : Machine) :
    (∃ s', f s = .ok s' ∧ x s = (.ok (), s')) ∨ ∃ e, x s = (.error e, s) := by
  subst hx
  unfold change
  cases f s with
  | ok s' => exact .inl ⟨s', rfl, rfl⟩
  | error e => exact .inr ⟨e, rfl⟩

theorem grows_change (hx : x = change f) (h : ∀ s', f s = .ok s' → Grows P s s') :
    Grows P s (x s).2 := by
  rcases change_cases hx s with ⟨s', hs', hrun⟩ | ⟨e, hrun⟩
  · rw [hrun]
    exact h s' hs'
  · rw [hrun]
    exact .refl s

theorem grows_makeNames (rooted : Bool) (names : List Bytes) (s : Machine) :
    Grows Nothing s ((Files.makeNames rooted names : StateM Machine (Except FileError Unit)) s).2 := by
  induction names generalizing s with
  | nil => exact .refl s
  | cons name above ih =>
    rw [Files.makeNames, run_bind, run_stat]
    cases s.stat _ with
    | ok info =>
      dsimp only
      split
      · exact .refl s
      · exact .refl s
    | error e =>
      dsimp only
      rw [run_bind]
      refine (ih s).trans ?_
      generalize (Files.makeNames rooted above : StateM Machine (Except FileError Unit)) s = made
      obtain ⟨made | made, s'⟩ := made
      · exact .refl s'
      · exact grows_change rfl fun _ h => grows_makeDirectory h

theorem makeTemporary_cases (directory front back : Bytes) (s : Machine) :
    (∃ e, (Files.makeTemporary directory front back : StateM Machine (Except FileError Bytes)) s =
      (.error e, s)) ∨
    ∃ n s', (Files.makeTemporary directory front back : StateM Machine (Except FileError Bytes)) s =
        (.ok (Path.join [directory, front ++ Bytes.ofNat n ++ back]), s') ∧
      Path.slash ∉ front ++ back ∧
      Grows (fun q _ => q.getLast? = some (front ++ Bytes.ofNat n ++ back)) s s' := by
  unfold Files.makeTemporary
  split
  · exact .inl ⟨_, rfl⟩
  · rename_i hslash
    cases hmade : s.makeTemporary directory front back with
    | error e => exact .inl ⟨e, by simp only [Surroundings.makeTemporary, hmade]⟩
    | ok made =>
      obtain ⟨path, s'⟩ := made
      obtain ⟨n, rfl, hgrows⟩ := makeTemporary_eq_ok hmade
      refine .inr ⟨n, s', ?_, by simpa using hslash, hgrows⟩
      simp only [Surroundings.makeTemporary, hmade]

end

end Machine

end Ifj24
