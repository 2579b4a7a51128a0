import Mathlib.Data.List.Induction
import StreamLoom.Files
import StreamLoom.Proofs.Outcome

/-!
# Places of paths

What a path denotes is given by the names on the way to it from the root. Cleaning and joining paths, and
leaving out their last part, act on these names, so that it does not matter by which path a file is named
when another one is looked for next to it. In a tree in which everything stands in directories, cleaned
paths lead to the files that are found at them.
-/

namespace StreamLoom

namespace Path

/-! ### Parts -/

variable {path p : String} {ps : List String}

private theorem slash_not_mem_splitOn {cs piece : List Char} (h : piece ∈ cs.splitOn '/') :
    '/' ∉ piece := by
  induction cs generalizing piece with
  | nil =>
    rw [List.splitOn_nil, List.mem_singleton] at h
    rw [h]
    exact List.not_mem_nil
  | cons c cs ih =>
    rw [List.splitOn_cons_eq_if_modifyHead] at h
    split at h
    · rcases List.mem_cons.mp h with rfl | h
      · exact List.not_mem_nil
      · exact ih h
    · rename_i hc
      obtain ⟨first, rest, hfirst⟩ := List.exists_cons_of_ne_nil (List.splitOn_ne_nil '/' cs)
      rw [hfirst, List.modifyHead_cons] at h
      rcases List.mem_cons.mp h with rfl | h
      · intro hmem
        rcases List.mem_cons.mp hmem with rfl | hmem
        · exact hc (beq_self_eq_true _)
        · exact ih (by rw [hfirst]; exact List.mem_cons_self) hmem
      · exact ih (by rw [hfirst]; exact List.mem_cons_of_mem _ h)

theorem slash_not_mem_of_mem_parts (h : p ∈ parts path) : '/' ∉ p.toList := by
  obtain ⟨piece, hpiece, rfl⟩ := List.mem_map.mp h
  rw [String.toList_ofList]
  exact slash_not_mem_splitOn hpiece

theorem parts_ne_nil (path : String) : parts path ≠ [] := by
  rw [parts, ne_eq, List.map_eq_nil_iff]
  exact List.splitOn_ne_nil _ _

theorem parts_append (a b : String) : parts (a ++ "/" ++ b) = parts a ++ parts b := by
  have hslash : "/".toList = ['/'] := rfl
  rw [parts, String.toList_append, String.toList_append, hslash, List.append_assoc, List.singleton_append,
    List.splitOn_append_cons_self, List.map_append]
  rfl

theorem parts_intercalate (hne : ps ≠ []) (hps : ∀ p ∈ ps, '/' ∉ p.toList) :
    parts ("/".intercalate ps) = ps := by
  have hslash : "/".toList = ['/'] := rfl
  have hpieces : ∀ piece ∈ ps.map String.toList, '/' ∉ piece := by
    intro piece hpiece
    obtain ⟨p, hp, rfl⟩ := List.mem_map.mp hpiece
    exact hps p hp
  rw [parts, String.toList_intercalate, hslash, List.splitOn_intercalate _ hpieces (by simpa using hne),
    List.map_map]
  simp

theorem parts_of_no_slash (h : '/' ∉ p.toList) : parts p = [p] := by
  rw [parts, List.splitOn_eq_singleton h, List.map_singleton, String.ofList_toList]

theorem isAbsolute_iff : isAbsolute path = true ↔ ∃ rest ≠ [], parts path = "" :: rest := by
  have hslash : "/".toList = ['/'] := rfl
  rw [isAbsolute, String.startsWith_string_iff, hslash, parts]
  cases path.toList with
  | nil => simp
  | cons c cs =>
    rw [List.splitOn_cons_eq_if_modifyHead, List.cons_prefix_cons]
    obtain ⟨first, rest, hfirst⟩ := List.exists_cons_of_ne_nil (List.splitOn_ne_nil '/' cs)
    rw [hfirst]
    by_cases hc : c = '/'
    · simp [hc]
    · have hc' : (c == '/') = false := by simpa using hc
      rw [if_neg (by simp [hc'])]
      refine iff_of_false (fun h => hc h.1.symm) ?_
      rintro ⟨_, -, h⟩
      rw [List.modifyHead_cons, List.map_cons, List.cons.injEq] at h
      simpa using congrArg String.toList h.1

theorem isAbsolute_append (a b : String) (h : a ≠ "") : isAbsolute (a ++ b) = isAbsolute a := by
  have hslash : "/".toList = ['/'] := rfl
  rw [Bool.eq_iff_iff, isAbsolute, isAbsolute, String.startsWith_string_iff, String.startsWith_string_iff,
    hslash, String.toList_append]
  cases hcs : a.toList with
  | nil => exact absurd (String.toList_injective hcs) h
  | cons c cs => simp

/-! ### Names -/

/-- A part that leads to something below a place. -/
structure IsName (part : String) : Prop where
  ne_empty : part ≠ ""
  ne_here : part ≠ "."
  ne_above : part ≠ ".."
  no_slash : '/' ∉ part.toList

def Names (ps : List String) : Prop := ∀ p ∈ ps, IsName p

def rooted (ps : List String) : String := "/" ++ "/".intercalate ps

theorem isAbsolute_rooted (ps : List String) : isAbsolute (rooted ps) = true :=
  (isAbsolute_append "/" _ (by decide)).trans (by decide +kernel)

theorem rooted_ne_empty (ps : List String) : rooted ps ≠ "" := by
  intro h
  have habsolute := isAbsolute_rooted ps
  rw [h] at habsolute
  exact absurd habsolute (by decide)

theorem parts_rooted (hne : ps ≠ []) (hps : Names ps) : parts (rooted ps) = "" :: ps := by
  have h := parts_append "" ("/".intercalate ps)
  rw [parts_intercalate hne fun p hp => (hps p hp).no_slash, String.empty_append] at h
  exact h

variable {r : Bool} {done : List String}

theorem enter_name (hp : IsName p) : enter r done p = done ++ [p] := by
  rw [enter, if_neg (by simp [hp.ne_empty, hp.ne_here]), if_neg hp.ne_above]

/-- A part that is no name leads to the place itself or above it. -/
theorem enter_cases (hp : '/' ∉ p.toList) :
    ((p = "" ∨ p = ".") ∧ enter r done p = done) ∨ p = ".." ∨ IsName p := by
  by_cases hhere : p = "" ∨ p = "."
  · exact .inl ⟨hhere, by rw [enter, if_pos hhere]⟩
  · by_cases habove : p = ".."
    · exact .inr (.inl habove)
    · exact .inr (.inr ⟨fun h => hhere (.inl h), fun h => hhere (.inr h), habove, hp⟩)

theorem enter_above (hdone : Names done) : enter true done ".." = done.dropLast := by
  rw [enter, if_neg (by decide), if_pos rfl]
  rcases List.eq_nil_or_concat done with rfl | ⟨above, last, rfl⟩
  · rfl
  · rw [List.concat_eq_append, List.getLast?_concat]
    exact if_neg (hdone last (by simp)).ne_above

theorem foldl_enter_names (hps : Names ps) : ps.foldl (enter r) done = done ++ ps := by
  induction ps generalizing done with
  | nil => rw [List.append_nil]; rfl
  | cons p ps ih =>
    rw [List.foldl_cons, enter_name (hps p List.mem_cons_self),
      ih fun q hq => hps q (List.mem_cons_of_mem _ hq), List.append_assoc, List.singleton_append]

theorem names_enter (hdone : Names done) (hp : '/' ∉ p.toList) : Names (enter true done p) := by
  rcases enter_cases hp with ⟨-, h⟩ | rfl | hname
  · rwa [h]
  · rw [enter_above hdone]
    exact fun q hq => hdone q (List.dropLast_subset _ hq)
  · rw [enter_name hname]
    intro q hq
    rcases List.mem_append.mp hq with hq | hq
    · exact hdone q hq
    · rwa [List.mem_singleton.mp hq]

theorem names_foldl_enter (hdone : Names done) (hps : ∀ p ∈ ps, '/' ∉ p.toList) :
    Names (ps.foldl (enter true) done) := by
  induction ps generalizing done with
  | nil => exact hdone
  | cons p ps ih =>
    exact ih (names_enter hdone (hps p List.mem_cons_self)) fun q hq => hps q (List.mem_cons_of_mem _ hq)

theorem names_resolve (path : String) : Names (resolve true (parts path)) :=
  names_foldl_enter (fun _ h => absurd h List.not_mem_nil) fun _ => slash_not_mem_of_mem_parts

/-- Some parts lead upwards first, and then along names. -/
def Descends (ps : List String) : Prop := ∃ k names, ps = List.replicate k ".." ++ names ∧ Names names

theorem Descends.of_mem (h : Descends ps) (hp : p ∈ ps) : p = ".." ∨ IsName p := by
  obtain ⟨k, names, rfl, hnames⟩ := h
  rcases List.mem_append.mp hp with hp | hp
  · exact .inl (List.eq_of_mem_replicate hp)
  · exact .inr (hnames p hp)

theorem Descends.no_slash (h : Descends ps) (hp : p ∈ ps) : '/' ∉ p.toList := by
  rcases h.of_mem hp with rfl | hname
  · decide
  · exact hname.no_slash

private theorem descends_enter (hdone : Descends done) (hp : '/' ∉ p.toList) :
    Descends (enter false done p) := by
  obtain ⟨k, names, rfl, hnames⟩ := hdone
  rcases enter_cases hp with ⟨-, h⟩ | rfl | hname
  · rw [h]
    exact ⟨k, names, rfl, hnames⟩
  · rw [enter, if_neg (by decide), if_pos rfl]
    rcases List.eq_nil_or_concat names with rfl | ⟨above, last, rfl⟩
    · -- There is nothing but steps upwards, so that there is one more of them.
      refine ⟨k + 1, [], ?_, hnames⟩
      rw [List.append_nil, List.append_nil, List.replicate_succ']
      cases k with
      | zero => rfl
      | succ k =>
        rw [List.replicate_succ', List.getLast?_concat]
        rfl
    · rw [List.concat_eq_append, ← List.append_assoc, List.getLast?_concat]
      dsimp only
      rw [if_neg (hnames last (by simp)).ne_above, List.dropLast_concat]
      exact ⟨k, above, rfl, fun q hq => hnames q (by simp [hq])⟩
  · rw [enter_name hname, List.append_assoc]
    refine ⟨k, names ++ [p], rfl, fun q hq => ?_⟩
    rcases List.mem_append.mp hq with hq | hq
    · exact hnames q hq
    · rwa [List.mem_singleton.mp hq]

theorem descends_resolve (hps : ∀ p ∈ ps, '/' ∉ p.toList) : Descends (resolve false ps) := by
  induction ps using List.reverseRecOn with
  | nil => exact ⟨0, [], rfl, fun _ h => absurd h List.not_mem_nil⟩
  | append_singleton ps p ih =>
    rw [resolve, List.foldl_append]
    exact descends_enter (ih fun q hq => hps q (by simp [hq])) (hps p (by simp))

/-- It makes no difference to where some parts lead that they are resolved before. -/
theorem foldl_enter_resolve (hdone : Names done) (hps : ∀ p ∈ ps, '/' ∉ p.toList) :
    (resolve false ps).foldl (enter true) done = ps.foldl (enter true) done := by
  induction ps using List.reverseRecOn with
  | nil => rfl
  | append_singleton ps p ih =>
    have hps' : ∀ q ∈ ps, '/' ∉ q.toList := fun q hq => hps q (by simp [hq])
    have hp : '/' ∉ p.toList := hps p (by simp)
    have hshape := descends_resolve hps'
    specialize ih hps'
    rw [resolve, List.foldl_append, List.foldl_append, ← resolve, ← ih]
    change (enter false (resolve false ps) p).foldl (enter true) done =
      enter true ((resolve false ps).foldl (enter true) done) p
    have hcases : ((p = "" ∨ p = ".") ∧ enter false (resolve false ps) p = resolve false ps) ∨
        p = ".." ∨ IsName p := enter_cases hp
    rcases hcases with ⟨hhere, h⟩ | rfl | hname
    · rw [h, enter, if_pos hhere]
    · rw [enter, if_neg (by decide), if_pos rfl]
      rcases List.eq_nil_or_concat (resolve false ps) with hnil | ⟨above, last, hlast⟩
      · rw [hnil]
        rfl
      · rw [List.concat_eq_append] at hlast
        rw [hlast, List.getLast?_concat]
        dsimp only
        split
        · rw [List.foldl_append]
          rfl
        · rename_i hne
          have hlastName : IsName last :=
            (hshape.of_mem (by rw [hlast]; simp)).resolve_left hne
          have habove : ∀ q ∈ above, '/' ∉ q.toList := fun q hq => hshape.no_slash (by rw [hlast]; simp [hq])
          have hnames : Names (above.foldl (enter true) done ++ [last]) := by
            rw [← enter_name (r := true) hlastName]
            exact names_enter (names_foldl_enter hdone habove) hlastName.no_slash
          rw [List.dropLast_concat, List.foldl_append, List.foldl_cons, List.foldl_nil, enter_name hlastName,
            enter_above hnames, List.dropLast_concat]
    · rw [enter_name hname, List.foldl_append]
      rfl

/-! ### Cleaned paths -/

theorem clean_absolute (h : isAbsolute path = true) :
    clean path = rooted (resolve true (parts path)) := by
  rw [clean, h]
  rfl

/-- A path that does not start at the root is cleaned to its resolved parts, of which there may be none. -/
private theorem parts_clean_relative (h : isAbsolute path = false) :
    isAbsolute (clean path) = false ∧
      (parts (clean path) = ["."] ∧ resolve false (parts path) = [] ∨
        parts (clean path) = resolve false (parts path)) := by
  have hshape : Descends (resolve false (parts path)) :=
    descends_resolve fun _ => slash_not_mem_of_mem_parts
  have hclean : clean path = if ("/".intercalate (resolve false (parts path))).isEmpty then "."
      else "/".intercalate (resolve false (parts path)) := by
    rw [clean, h]
    rfl
  rw [hclean]
  cases hresolved : resolve false (parts path) with
  | nil => exact ⟨by decide +kernel, .inl ⟨by decide, rfl⟩⟩
  | cons p rest =>
    rw [hresolved] at hshape
    have hparts : parts ("/".intercalate (p :: rest)) = p :: rest :=
      parts_intercalate (List.cons_ne_nil _ _) fun q hq => hshape.no_slash hq
    have hp : p ≠ "" := by
      rcases hshape.of_mem List.mem_cons_self with rfl | hname
      · decide
      · exact hname.ne_empty
    have htext : ("/".intercalate (p :: rest)).isEmpty = false := by
      rw [String.isEmpty_eq_false_iff]
      intro hempty
      rw [hempty] at hparts
      have hhead := congrArg List.head? hparts
      exact hp (Option.some.inj hhead).symm
    rw [htext, if_neg (by decide)]
    refine ⟨?_, .inr hparts⟩
    rw [Bool.eq_false_iff]
    intro habsolute
    obtain ⟨_, -, hsplit⟩ := isAbsolute_iff.mp habsolute
    rw [hparts] at hsplit
    exact hp (List.cons.inj hsplit).1

theorem isAbsolute_clean (path : String) : isAbsolute (clean path) = isAbsolute path := by
  cases h : isAbsolute path with
  | true => rw [clean_absolute h, isAbsolute_rooted]
  | false => exact (parts_clean_relative h).1

theorem clean_ne_empty (path : String) : clean path ≠ "" := by
  cases h : isAbsolute path with
  | true =>
    rw [clean_absolute h]
    exact rooted_ne_empty _
  | false =>
    intro hempty
    have hshape : Descends (resolve false (parts path)) :=
      descends_resolve fun _ => slash_not_mem_of_mem_parts
    obtain ⟨-, ⟨hparts, -⟩ | hparts⟩ := parts_clean_relative h
    · rw [hempty] at hparts
      exact absurd hparts (by decide)
    · rw [hempty] at hparts
      rcases hshape.of_mem (p := "") (by rw [← hparts]; decide) with habove | hname
      · exact absurd habove (by decide)
      · exact hname.ne_empty rfl

theorem parent_ne_empty (path : String) : parent path ≠ "" := by
  unfold parent
  dsimp only
  split
  · decide
  · exact clean_ne_empty _

/-- Where the parts of a path lead to from some place. -/
theorem foldl_parts_clean (hdone : Names done) (h : isAbsolute path = false) :
    (parts (clean path)).foldl (enter true) done = (parts path).foldl (enter true) done := by
  have hslash : ∀ p ∈ parts path, '/' ∉ p.toList := fun _ => slash_not_mem_of_mem_parts
  rw [← foldl_enter_resolve hdone hslash]
  obtain ⟨-, ⟨hparts, hresolved⟩ | hparts⟩ := parts_clean_relative h
  · rw [hparts, hresolved]
    rfl
  · rw [hparts]

theorem resolve_parts_rooted (hps : Names ps) : resolve true (parts (rooted ps)) = ps := by
  cases ps with
  | nil => decide
  | cons p ps =>
    rw [parts_rooted (List.cons_ne_nil _ _) hps, resolve, List.foldl_cons]
    exact (foldl_enter_names hps).trans (List.nil_append _)

theorem clean_rooted (hps : Names ps) : clean (rooted ps) = rooted ps := by
  rw [clean_absolute (isAbsolute_rooted ps), resolve_parts_rooted hps]

end Path

namespace FileTree

open StreamLoom.Path

variable {t : FileTree} {path : String}

/-- The names on the way from the root to where a path starts. -/
def start (t : FileTree) (path : String) : List String :=
  if isAbsolute path then [] else resolve true (parts t.home)

/-- The names on the way from the root to what a path denotes. -/
def route (t : FileTree) (path : String) : List String := (parts path).foldl (enter true) (t.start path)

theorem names_start (t : FileTree) (path : String) : Names (t.start path) := by
  unfold start
  split
  · exact fun _ h => absurd h List.not_mem_nil
  · exact names_resolve _

theorem names_route (t : FileTree) (path : String) : Names (t.route path) :=
  names_foldl_enter (names_start t path) fun _ => slash_not_mem_of_mem_parts

theorem route_clean (t : FileTree) (path : String) : t.route (clean path) = t.route path := by
  unfold route start
  rw [isAbsolute_clean]
  cases h : isAbsolute path with
  | true =>
    rw [if_pos rfl, clean_absolute h]
    exact resolve_parts_rooted (names_resolve path)
  | false => exact foldl_parts_clean (names_resolve t.home) h

theorem route_empty (t : FileTree) : t.route "" = resolve true (parts t.home) := by
  have hempty : isAbsolute "" = false := by decide +kernel
  rw [route, start, hempty]
  rfl

theorem route_root (t : FileTree) : t.route "/" = [] := by
  have hroot : isAbsolute "/" = true := by decide +kernel
  rw [route, start, hroot]
  rfl

theorem route_join {directory : String} (hdirectory : directory ≠ "") (hpath : path ≠ "") :
    t.route (join directory path) = (parts path).foldl (enter true) (t.route directory) := by
  have hjoin : join directory path = clean (directory ++ "/" ++ path) := by
    rw [join, String.isEmpty_eq_false_iff.mpr hdirectory, String.isEmpty_eq_false_iff.mpr hpath]
  have hstart : t.start (directory ++ "/" ++ path) = t.start directory := by
    rw [start, String.append_assoc, isAbsolute_append _ _ hdirectory, start]
  rw [hjoin, route_clean, route, parts_append, List.foldl_append, hstart, ← route]

theorem route_parent {init : List String} {last : String} (h : parts path = init ++ [last]) :
    t.route (parent path) = init.foldl (enter true) (t.start path) := by
  have hslash : ∀ p ∈ init, '/' ∉ p.toList := fun p hp =>
    slash_not_mem_of_mem_parts (h ▸ List.mem_append_left _ hp)
  unfold parent
  rw [h, List.dropLast_concat]
  dsimp only
  have habsolute : isAbsolute path = true ↔ ∃ rest ≠ [], init ++ [last] = "" :: rest := by
    rw [isAbsolute_iff, h]
  cases init with
  | nil =>
    have hrelative : isAbsolute path = false := by
      rw [Bool.eq_false_iff, Ne, habsolute]
      rintro ⟨rest, hrest, hsplit⟩
      exact hrest (List.cons.inj hsplit).2.symm
    rw [if_neg (by simp), route_clean, start, hrelative]
    exact route_empty t
  | cons first rest =>
    have htext : parts ("/".intercalate (first :: rest)) = first :: rest :=
      parts_intercalate (List.cons_ne_nil _ _) hslash
    by_cases hroot : rest = [] ∧ first = ""
    · obtain ⟨rfl, rfl⟩ := hroot
      rw [if_pos ⟨rfl, by decide⟩, route_root, start, habsolute.mpr ⟨[last], by simp, rfl⟩]
      rfl
    · have hsame : isAbsolute ("/".intercalate (first :: rest)) = isAbsolute path := by
        rw [Bool.eq_iff_iff, habsolute, isAbsolute_iff, htext]
        constructor
        · rintro ⟨others, -, hsplit⟩
          exact ⟨others ++ [last], by simp, by rw [hsplit, List.cons_append]⟩
        · rintro ⟨others, -, hsplit⟩
          obtain ⟨rfl, -⟩ := List.cons.inj hsplit
          exact ⟨rest, fun hrest => hroot ⟨hrest, rfl⟩, rfl⟩
      have hproper : ¬((first :: rest ++ [last]).length = 2 ∧
          ("/".intercalate (first :: rest)).isEmpty = true) := by
        rintro ⟨hlength, hempty⟩
        obtain rfl : rest = [] := by simpa using hlength
        exact hroot ⟨rfl, by simpa using hempty⟩
      rw [if_neg hproper, route_clean, route, htext, start, hsame, start]

theorem absolute_eq (hhome : isAbsolute t.home = true) (path : String) :
    t.absolute path = rooted (t.route path) := by
  unfold absolute
  cases h : isAbsolute path with
  | true => rw [if_pos rfl, clean_absolute h, route, start, h, if_pos rfl, resolve]
  | false =>
    have hne : t.home ≠ "" := by
      intro hempty
      rw [hempty] at hhome
      exact absurd hhome (by decide +kernel)
    rw [if_neg (by decide), route, start, h, if_neg (by decide)]
    by_cases hpath : path = ""
    · rw [hpath, join, String.isEmpty_eq_false_iff.mpr hne]
      exact clean_absolute hhome
    · have hbelow : isAbsolute (t.home ++ "/" ++ path) = true := by
        rw [String.append_assoc, isAbsolute_append _ _ hne, hhome]
      rw [join, String.isEmpty_eq_false_iff.mpr hne, String.isEmpty_eq_false_iff.mpr hpath]
      dsimp only
      rw [clean_absolute hbelow, parts_append, resolve, List.foldl_append, ← resolve]

theorem route_absolute (hhome : isAbsolute t.home = true) (path : String) :
    t.route (t.absolute path) = t.route path := by
  rw [absolute_eq hhome, route, start, isAbsolute_rooted, if_pos rfl]
  exact resolve_parts_rooted (names_route t path)

theorem clean_absolutePath (hhome : isAbsolute t.home = true) (path : String) :
    clean (t.absolute path) = t.absolute path := by
  rw [absolute_eq hhome, clean_rooted (names_route t path)]

theorem absolute_absolute (hhome : isAbsolute t.home = true) (path : String) :
    t.absolute (t.absolute path) = t.absolute path := by
  rw [absolute_eq hhome (t.absolute path), route_absolute hhome, absolute_eq hhome]

/-! ### Trees -/

/-- A tree in which everything stands in directories, with a working directory. -/
structure WellFormed (t : FileTree) : Prop where
  home_clean : clean t.home = t.home
  home_absolute : isAbsolute t.home = true
  home_directory : t.entries.lookup t.home = some .directory
  above_directory : ∀ entry ∈ t.entries, ∀ place ∈ ancestors entry.1, t.entries.lookup place = some .directory

namespace WellFormed

variable {ps qs : List String} {contents : String}

theorem home_eq (ht : t.WellFormed) : t.home = rooted (resolve true (parts t.home)) := by
  rw [← clean_absolute ht.home_absolute, ht.home_clean]

theorem directory_of_entry (ht : t.WellFormed) (hps : Names (ps ++ qs)) (hqs : qs ≠ [])
    {entry : FileEntry} (hentry : t.entries.lookup (rooted (ps ++ qs)) = some entry) :
    t.entries.lookup (rooted ps) = some .directory := by
  obtain ⟨before, after, hentries, -⟩ := List.lookup_eq_some_iff.mp hentry
  refine ht.above_directory (rooted (ps ++ qs), entry) (by rw [hentries]; simp) _ ?_
  have hne : ps ++ qs ≠ [] := by simp [hqs]
  rw [ancestors, parts_rooted hne hps]
  refine List.mem_map.mpr ⟨ps.length, List.mem_range.mpr ?_, ?_⟩
  · simpa using List.length_pos_of_ne_nil hqs
  · simp [rooted]

theorem directory_of_home (ht : t.WellFormed) (h : resolve true (parts t.home) = ps ++ qs) :
    t.entries.lookup (rooted ps) = some .directory := by
  have hhome : t.entries.lookup (rooted (ps ++ qs)) = some .directory := by
    rw [← h, ← ht.home_eq, ht.home_directory]
  cases qs with
  | nil => rwa [List.append_nil] at hhome
  | cons q qs => exact ht.directory_of_entry (by rw [← h]; exact names_resolve _) (List.cons_ne_nil _ _) hhome

end WellFormed

/-! ### Walks -/

variable {ps done : List String} {p place contents : String}

private theorem join_rooted (hdone : Names done) (hp : '/' ∉ p.toList) :
    join (rooted done) p = rooted (enter true done p) := by
  rw [join, String.isEmpty_eq_false_iff.mpr (rooted_ne_empty done)]
  by_cases hempty : p = ""
  · rw [hempty]
    change clean (rooted done) = _
    rw [clean_absolute (isAbsolute_rooted done), resolve_parts_rooted hdone]
    rfl
  · rw [String.isEmpty_eq_false_iff.mpr hempty]
    dsimp only
    rw [clean_absolute (by rw [String.append_assoc, isAbsolute_append _ _ (rooted_ne_empty done),
      isAbsolute_rooted]), parts_append, resolve, List.foldl_append, ← resolve, resolve_parts_rooted hdone,
      parts_of_no_slash hp]
    rfl

theorem follow_eq_ok (hdone : Names done) (hp : '/' ∉ p.toList) :
    t.follow (rooted done) p = .ok place ↔
      t.entries.lookup (rooted done) = some .directory ∧ place = rooted (enter true done p) := by
  unfold follow
  split
  · rename_i h
    rw [join_rooted hdone hp, Except.ok.injEq]
    exact ⟨fun h' => ⟨h, h'.symm⟩, fun h' => h'.2.symm⟩
  · rename_i h
    rw [h]
    simp
  · rename_i h
    rw [h]
    simp

/-- A walk goes through directories only. -/
theorem foldlM_follow_eq_ok (hdone : Names done) (hps : ∀ p ∈ ps, '/' ∉ p.toList) :
    ps.foldlM t.follow (rooted done) = .ok place ↔
      (∀ qs rs, ps = qs ++ rs → rs ≠ [] →
        t.entries.lookup (rooted (qs.foldl (enter true) done)) = some .directory) ∧
        place = rooted (ps.foldl (enter true) done) := by
  induction ps generalizing done with
  | nil =>
    rw [List.foldlM_nil]
    constructor
    · intro h
      refine ⟨fun qs rs h' hrs => ?_, (Except.ok.inj h).symm⟩
      exact absurd (List.append_eq_nil_iff.mp h'.symm).2 hrs
    · rintro ⟨-, rfl⟩
      rfl
  | cons p ps ih =>
    have hp : '/' ∉ p.toList := hps p List.mem_cons_self
    have ih := ih (names_enter hdone hp) fun q hq => hps q (List.mem_cons_of_mem _ hq)
    rw [List.foldlM_cons]
    constructor
    · intro h
      obtain ⟨next, hnext, h⟩ := Outcome.bind_eq_ok h
      obtain ⟨hdirectory, rfl⟩ := (follow_eq_ok hdone hp).mp hnext
      obtain ⟨hdirectories, hplace⟩ := ih.mp h
      refine ⟨fun qs rs hsplit hrs => ?_, hplace⟩
      cases qs with
      | nil => exact hdirectory
      | cons q qs =>
        obtain ⟨rfl, hrest⟩ := List.cons.inj hsplit
        exact hdirectories qs rs hrest hrs
    · rintro ⟨hdirectories, hplace⟩
      have hnext : t.follow (rooted done) p = .ok (rooted (enter true done p)) :=
        (follow_eq_ok hdone hp).mpr ⟨hdirectories [] _ rfl (List.cons_ne_nil _ _), rfl⟩
      rw [hnext]
      refine ih.mpr ⟨fun qs rs hsplit hrs => ?_, hplace⟩
      exact hdirectories (p :: qs) rs (by rw [hsplit, List.cons_append]) hrs

theorem locate_eq_ok (ht : t.WellFormed) (hpath : path ≠ "") :
    t.locate path = .ok place ↔
      (∀ qs rs, parts path = qs ++ rs → rs ≠ [] →
        t.entries.lookup (rooted (qs.foldl (enter true) (t.start path))) = some .directory) ∧
        place = t.absolute path := by
  have hstart : (if isAbsolute path then "/" else t.home) = rooted (t.start path) := by
    unfold start
    split
    · rfl
    · exact ht.home_eq
  rw [locate, String.isEmpty_eq_false_iff.mpr hpath, if_neg (by decide), hstart,
    foldlM_follow_eq_ok (names_start t path) fun _ => slash_not_mem_of_mem_parts,
    absolute_eq ht.home_absolute, route]

theorem read_eq_ok : t.read path = .ok contents ↔
    ∃ place, t.locate path = .ok place ∧ t.entries.lookup place = some (.file contents) := by
  unfold read
  cases hlocate : t.locate path with
  | error reason => simp
  | ok place =>
    simp only [Except.ok.injEq, exists_eq_left']
    cases t.entries.lookup place with
    | none => simp
    | some entry => cases entry <;> simp

theorem find?_of_read (ht : t.WellFormed) (h : t.read path = .ok contents) :
    t.find? path = some (.file contents) := by
  obtain ⟨place, hlocate, hlookup⟩ := read_eq_ok.mp h
  have hpath : path ≠ "" := by
    rintro rfl
    cases hlocate
  rw [find?, ← ((locate_eq_ok ht hpath).mp hlocate).2, hlookup]

/-- The last part of a path to a file is a name. -/
theorem exists_name_of_read (ht : t.WellFormed) (h : t.read path = .ok contents) :
    ∃ init name, parts path = init ++ [name] ∧ IsName name := by
  obtain ⟨place, hlocate, hlookup⟩ := read_eq_ok.mp h
  have hpath : path ≠ "" := by
    rintro rfl
    cases hlocate
  obtain ⟨hdirectories, rfl⟩ := (locate_eq_ok ht hpath).mp hlocate
  obtain ⟨init, last, hparts⟩ : ∃ init last, parts path = init ++ [last] := by
    rcases List.eq_nil_or_concat (parts path) with hnil | ⟨init, last, hparts⟩
    · exact absurd hnil (parts_ne_nil path)
    · exact ⟨init, last, by rw [hparts, List.concat_eq_append]⟩
  have hdirectory := hdirectories init [last] hparts (by simp)
  rw [absolute_eq ht.home_absolute, route, hparts, List.foldl_append] at hlookup
  change t.entries.lookup (rooted (enter true (init.foldl (enter true) (t.start path)) last)) = _ at hlookup
  have hnames : Names (init.foldl (enter true) (t.start path)) :=
    names_foldl_enter (names_start t path) fun p hp =>
      slash_not_mem_of_mem_parts (hparts ▸ List.mem_append_left _ hp)
  refine ⟨init, last, hparts, ?_⟩
  have hlast : '/' ∉ last.toList := slash_not_mem_of_mem_parts (hparts ▸ List.mem_concat_self)
  rcases enter_cases hlast with ⟨-, hhere⟩ | rfl | hname
  · rw [hhere, hdirectory] at hlookup
    cases hlookup
  · rw [enter_above hnames] at hlookup
    rcases List.eq_nil_or_concat (init.foldl (enter true) (t.start path)) with hnil | ⟨above, last, hlast⟩
    · rw [hnil] at hlookup hdirectory
      cases hlookup.symm.trans hdirectory
    · rw [List.concat_eq_append] at hlast
      rw [hlast] at hlookup hdirectory hnames
      rw [List.dropLast_concat, ht.directory_of_entry hnames (by simp) hdirectory] at hlookup
      cases hlookup
  · exact hname

/-- Next to a file, everything is found by the same names whatever path the file has been named by. -/
theorem route_parent_of_read (ht : t.WellFormed) (h : t.read path = .ok contents) :
    t.route (parent path) = (t.route path).dropLast := by
  obtain ⟨init, name, hparts, hname⟩ := exists_name_of_read ht h
  rw [route_parent hparts, route, hparts, List.foldl_append, List.foldl_cons, List.foldl_nil,
    enter_name hname, List.dropLast_concat]

/-- Steps upwards from a place lead to a place above it. -/
private theorem foldl_above_ancestor (hdone : Names done) (k : Nat) :
    (List.replicate k "..").foldl (enter true) done <+: done := by
  induction k generalizing done with
  | zero => exact List.prefix_rfl
  | succ k ih =>
    rw [List.replicate_succ, List.foldl_cons, enter_above hdone]
    exact (ih fun q hq => hdone q (List.dropLast_subset _ hq)).trans (List.dropLast_prefix _)

section

variable {entry : FileEntry} {qs rs : List String}

private theorem directory_of_rooted (ht : t.WellFormed) (hps : Names ps)
    (h : t.entries.lookup (rooted ps) = some entry) (hsplit : "" :: ps = qs ++ rs) (hrs : rs ≠ []) :
    t.entries.lookup (rooted (qs.foldl (enter true) [])) = some .directory := by
  cases qs with
  | nil => exact ht.directory_of_home (List.nil_append _).symm
  | cons q qs =>
    obtain ⟨rfl, rfl⟩ := List.cons.inj hsplit
    have hqs : Names qs := fun p hp => hps p (List.mem_append_left _ hp)
    have hfold : ("" :: qs).foldl (enter true) [] = qs := (foldl_enter_names hqs).trans (List.nil_append _)
    rw [hfold]
    exact ht.directory_of_entry hps hrs h

/-- So there are on the way up from the working directory, and down again. -/
private theorem directory_of_descends (ht : t.WellFormed) (hps : Descends ps)
    (h : t.entries.lookup (rooted (ps.foldl (enter true) (resolve true (parts t.home)))) = some entry)
    (hsplit : ps = qs ++ rs) (hrs : rs ≠ []) :
    t.entries.lookup (rooted (qs.foldl (enter true) (resolve true (parts t.home)))) = some .directory := by
  have hhome : Names (resolve true (parts t.home)) := names_resolve _
  obtain ⟨k, names, rfl, hnames⟩ := hps
  rcases List.append_eq_append_iff.mp hsplit with ⟨first, rfl, rfl⟩ | ⟨rest, hreplicate, rfl⟩
  · have hfirst : Names first := fun p hp => hnames p (List.mem_append_left _ hp)
    rw [List.foldl_append, foldl_enter_names hfirst]
    rw [List.foldl_append, foldl_enter_names hnames, ← List.append_assoc] at h
    refine ht.directory_of_entry (fun p hp => ?_) hrs h
    rw [List.append_assoc] at hp
    rcases List.mem_append.mp hp with hp | hp
    · exact hhome p ((foldl_above_ancestor hhome k).subset hp)
    · exact hnames p hp
  · -- The walk has not come back down yet.
    obtain ⟨below, hbelow⟩ := foldl_above_ancestor hhome qs.length
    have hqs : qs = List.replicate qs.length ".." := by
      refine List.eq_replicate_of_mem fun q hq => ?_
      exact List.eq_of_mem_replicate (hreplicate ▸ List.mem_append_left _ hq)
    rw [← hqs] at hbelow
    exact ht.directory_of_home hbelow.symm

end

/-- The file that is found at a cleaned path can be read. -/
theorem read_of_find? (ht : t.WellFormed) (h : t.find? (clean path) = some (.file contents)) :
    t.read (clean path) = .ok contents := by
  refine read_eq_ok.mpr ⟨t.absolute (clean path), (locate_eq_ok ht (clean_ne_empty _)).mpr ⟨?_, rfl⟩, h⟩
  rw [find?, absolute_eq ht.home_absolute] at h
  intro qs rs hsplit hrs
  rw [start, isAbsolute_clean]
  cases habsolute : isAbsolute path with
  | true =>
    rw [if_pos rfl]
    rw [route_clean, route, start, habsolute, if_pos rfl, ← resolve] at h
    have hne : resolve true (parts path) ≠ [] := by
      intro hnil
      rw [hnil, ht.directory_of_home (List.nil_append _).symm] at h
      cases h
    rw [clean_absolute habsolute, parts_rooted hne (names_resolve path)] at hsplit
    exact directory_of_rooted ht (names_resolve path) h hsplit hrs
  | false =>
    rw [if_neg (by decide)]
    rw [route, start, isAbsolute_clean, habsolute, if_neg (by decide)] at h
    obtain ⟨-, ⟨hparts, -⟩ | hparts⟩ := parts_clean_relative habsolute
    · rw [hparts] at hsplit
      obtain rfl : qs = [] := by
        cases qs with
        | nil => rfl
        | cons q qs => exact absurd (List.append_eq_nil_iff.mp (List.cons.inj hsplit).2.symm).2 hrs
      exact ht.directory_of_home (List.append_nil _).symm
    · have hdescends : Descends (resolve false (parts path)) :=
        descends_resolve fun _ => slash_not_mem_of_mem_parts
      rw [hparts] at hsplit h
      exact directory_of_descends ht hdescends h hsplit hrs

/-- A file can also be read by its absolute path. -/
theorem read_absolute (ht : t.WellFormed) (h : t.read path = .ok contents) :
    t.read (t.absolute path) = .ok contents := by
  have hfind := t.find?_of_read ht h
  rw [← clean_absolutePath ht.home_absolute]
  apply read_of_find? ht
  rw [clean_absolutePath ht.home_absolute, find?, absolute_absolute ht.home_absolute]
  exact hfind

end FileTree

end StreamLoom
