import HttpOrigin.Site.Lookup
import Mathlib.Data.List.TakeWhile

/-! What a site finds for a URI, said by the names that lead from directory to directory and not by
the segments that are looked up. What is found lies below the root, and neither slashes before the
path nor a query behind it make a difference. -/
namespace HttpOrigin

namespace Text

theorem pieces_eq_splitOnP (p : Char → Bool) (cs : List Char) :
    pieces p cs = cs.splitOnP p := by
  induction cs with
  | nil => rfl
  | cons c cs ih =>
    rw [pieces, List.splitOnP_cons_eq_if_modifyHead, ← ih]
    split
    · rfl
    · cases h : pieces p cs with
      | nil => exact absurd h (pieces_ne_nil p cs)
      | cons w ws => rfl

theorem intercalate_pieces (c : Char) (cs : List Char) :
    [c].intercalate (pieces (· == c) cs) = cs := by
  rw [pieces_eq_splitOnP]
  exact List.intercalate_splitOn c

end Text

/-! ### The path in a URI -/

namespace Site

/-- The URI is the path behind any number of slashes and before a query or a fragment, if there is
one. -/
def HasPath (uri path : String) : Prop :=
  ∃ slashes tail : List Char, uri.toList = slashes ++ (path.toList ++ tail) ∧
    (∀ c ∈ slashes, c = '/') ∧ path.toList.head? ≠ some '/' ∧
    (∀ c ∈ path.toList, c ≠ '?' ∧ c ≠ '#') ∧ ∀ c ∈ tail.head?, c = '?' ∨ c = '#'

def inPath (c : Char) : Bool := c ≠ '?' ∧ c ≠ '#'

theorem inPath_iff {c : Char} : inPath c = true ↔ c ≠ '?' ∧ c ≠ '#' := by
  simp [inPath]

theorem eq_of_not_inPath {c : Char} (h : inPath c = false) : c = '?' ∨ c = '#' := by
  have hor : c ≠ '?' → c = '#' := by simpa [inPath] using h
  by_cases hq : c = '?'
  · exact .inl hq
  · exact .inr (hor hq)

theorem inPath_of_mark {c : Char} (h : c = '?' ∨ c = '#') : inPath c = false := by
  obtain rfl | rfl := h <;> rfl

theorem toList_pathOfUri (uri : String) :
    (pathOfUri uri).toList = (uri.toList.takeWhile inPath).dropWhile (· == '/') :=
  String.toList_ofList

theorem hasPath_pathOfUri (uri : String) : HasPath uri (pathOfUri uri) := by
  have hcut : uri.toList.takeWhile inPath ++ uri.toList.dropWhile inPath = uri.toList :=
    List.takeWhile_append_dropWhile
  have hslashes : (uri.toList.takeWhile inPath).takeWhile (· == '/') ++ (pathOfUri uri).toList
      = uri.toList.takeWhile inPath := by
    rw [toList_pathOfUri]
    exact List.takeWhile_append_dropWhile
  refine ⟨(uri.toList.takeWhile inPath).takeWhile (· == '/'), uri.toList.dropWhile inPath,
    ?_, ?_, ?_, ?_, ?_⟩
  · rw [← List.append_assoc, hslashes, hcut]
  · intro c hc
    simpa using List.mem_takeWhile_imp hc
  · intro hhead
    have hnot := List.head?_dropWhile_not (· == '/') (uri.toList.takeWhile inPath)
    rw [← toList_pathOfUri, hhead] at hnot
    simp at hnot
  · intro c hc
    rw [toList_pathOfUri] at hc
    exact inPath_iff.1 (List.mem_takeWhile_imp ((List.dropWhile_sublist _).subset hc))
  · intro c hc
    have hnot := List.head?_dropWhile_not inPath uri.toList
    rw [Option.mem_def.1 hc] at hnot
    exact eq_of_not_inPath (by simpa using hnot)

theorem HasPath.eq {uri path : String} (h : HasPath uri path) : path = pathOfUri uri := by
  obtain ⟨slashes, tail, huri, hslashes, hhead, hpath, htail⟩ := h
  have hbefore : ∀ c ∈ slashes ++ path.toList, inPath c = true := by
    intro c hc
    obtain hc | hc := List.mem_append.1 hc
    · rw [hslashes c hc]
      rfl
    · exact inPath_iff.2 (hpath c hc)
  have hstop : tail.takeWhile inPath = [] := by
    cases tail with
    | nil => rfl
    | cons c tail =>
      have hmark := inPath_of_mark (htail c rfl)
      exact List.takeWhile_cons_of_neg (by simp [hmark])
  have htake : uri.toList.takeWhile inPath = slashes ++ path.toList := by
    rw [huri, ← List.append_assoc, List.takeWhile_append_of_pos hbefore, hstop, List.append_nil]
  have hdrop : (slashes ++ path.toList).dropWhile (· == '/') = path.toList := by
    rw [List.dropWhile_append_of_pos (by simpa using hslashes)]
    cases hcs : path.toList with
    | nil => rfl
    | cons c cs =>
      have hc : (c == '/') = false := by
        rw [hcs] at hhead
        simpa using hhead
      rw [List.dropWhile_cons_of_neg (by simp [hc])]
  apply String.toList_inj.1
  rw [toList_pathOfUri, htake, hdrop]

theorem HasPath.behind {uri path : String} (h : HasPath uri path) (n : Nat) :
    HasPath (String.ofList (List.replicate n '/') ++ uri) path := by
  obtain ⟨slashes, tail, huri, hslashes, hrest⟩ := h
  refine ⟨List.replicate n '/' ++ slashes, tail, by simp [huri], ?_, hrest⟩
  intro c hc
  obtain hc | hc := List.mem_append.1 hc
  · exact List.eq_of_mem_replicate hc
  · exact hslashes c hc

theorem HasPath.before {uri path : String} (h : HasPath uri path) {mark : Char}
    (hm : mark = '?' ∨ mark = '#') (more : String) :
    HasPath (uri ++ String.ofList [mark] ++ more) path := by
  obtain ⟨slashes, tail, huri, hslashes, hhead, hpath, htail⟩ := h
  refine ⟨slashes, tail ++ mark :: more.toList, by simp [huri], hslashes, hhead, hpath, ?_⟩
  cases tail with
  | nil =>
    rintro c ⟨⟩
    exact hm
  | cons d tail => exact htail

/-- Slashes put before a URI do not change what is found. -/
theorem find_behind (s : Site) (n : Nat) (uri : String) :
    s.find (String.ofList (List.replicate n '/') ++ uri) = s.find uri := by
  have hpath := ((hasPath_pathOfUri uri).behind n).eq
  rw [find, ← hpath]
  rfl

/-- Nor does a query or a fragment put behind it. -/
theorem find_before (s : Site) {mark : Char} (hm : mark = '?' ∨ mark = '#') (uri more : String) :
    s.find (uri ++ String.ofList [mark] ++ more) = s.find uri := by
  have hpath := ((hasPath_pathOfUri uri).before hm more).eq
  rw [find, ← hpath]
  rfl

/-! ### Segments -/

theorem intercalate_segments (path : String) : "/".intercalate (segments path) = path := by
  apply String.toList_inj.1
  rw [String.toList_intercalate, segments, List.map_map]
  have hid : String.toList ∘ String.ofList = id := by
    funext cs
    exact String.toList_ofList
  rw [hid, List.map_id]
  exact Text.intercalate_pieces '/' path.toList

theorem slash_not_mem_segments {path segment : String} (h : segment ∈ segments path) :
    '/' ∉ segment.toList := by
  obtain ⟨w, hw, rfl⟩ := List.mem_map.1 h
  rw [String.toList_ofList]
  intro hmem
  simpa using Text.not_mem_pieces hw '/' hmem

structure IsName (segment : String) : Prop where
  ne_empty : segment ≠ ""
  ne_here : segment ≠ "."
  ne_up : segment ≠ ".."
  slash : '/' ∉ segment.toList

theorem isName_of_mem_names {path name : String} (hup : ".." ∉ segments path)
    (h : name ∈ names (segments path)) : IsName name := by
  obtain ⟨hmem, hname⟩ := List.mem_filter.1 h
  have hname : name ≠ "" ∧ name ≠ "." := by simpa using hname
  exact ⟨hname.1, hname.2, fun hdots => hup (hdots ▸ hmem), slash_not_mem_segments hmem⟩

theorem isName_indexName : IsName indexName := by
  refine ⟨?_, ?_, ?_, ?_⟩ <;> decide

/-- The last segment is empty or `.`, so the path can only be that of a directory. -/
def Trails (segments : List String) : Prop :=
  ∃ last ∈ segments.getLast?, last = "" ∨ last = "."

theorem not_trails_nil : ¬ Trails [] := by
  rintro ⟨last, ⟨⟩, -⟩

theorem trails_cons_cons {segment next : String} {rest : List String} :
    Trails (segment :: next :: rest) ↔ Trails (next :: rest) := by
  rw [Trails, List.getLast?_cons_cons]
  rfl

theorem trails_singleton {segment : String} :
    Trails [segment] ↔ segment = "" ∨ segment = "." := by
  simp [Trails]

theorem trails_of_names_eq_nil {segment : String} {rest : List String}
    (h : names (segment :: rest) = []) : Trails (segment :: rest) := by
  have hlast := List.getLast?_eq_some_getLast (List.cons_ne_nil segment rest)
  have hnone := List.filter_eq_nil_iff.1 h _ (List.getLast_mem (List.cons_ne_nil segment rest))
  refine ⟨_, hlast, ?_⟩
  simpa [Classical.or_iff_not_imp_left] using hnone

theorem names_cons_of_name {segment : String} {rest : List String}
    (h : ¬ (segment = "" ∨ segment = ".")) : names (segment :: rest) = segment :: names rest := by
  rw [not_or] at h
  exact List.filter_cons_of_pos (decide_eq_true h)

theorem names_cons_of_not_name {segment : String} {rest : List String}
    (h : segment = "" ∨ segment = ".") : names (segment :: rest) = names rest := by
  refine List.filter_cons_of_neg ?_
  simpa [Classical.or_iff_not_imp_left] using h

end Site

/-! ### Ways through a tree -/

namespace Node

inductive Leads : Node → List String → Node → Prop where
  | here (n : Node) : Leads n [] n
  | entry {entries : List (String × Node)} {name : String} {next n : Node} {names : List String} :
      entries.lookup name = some next → Leads next names n →
      Leads (directory entries) (name :: names) n

theorem leads_nil_iff {m n : Node} : Leads m [] n ↔ m = n := by
  constructor
  · intro h
    cases h
    rfl
  · rintro rfl
    exact .here m

theorem leads_cons_iff {m n : Node} {name : String} {names : List String} :
    Leads m (name :: names) n ↔ ∃ next, m.child? name = some next ∧ Leads next names n := by
  constructor
  · intro h
    cases h with
    | entry hentry hrest => exact ⟨_, hentry, hrest⟩
  · rintro ⟨next, hchild, hrest⟩
    cases m with
    | file f => cases hchild
    | directory entries => exact .entry hchild hrest

theorem Leads.append {l m n : Node} {names more : List String} (h : Leads l names m)
    (hmore : Leads m more n) : Leads l (names ++ more) n := by
  induction h with
  | here l => exact hmore
  | entry hentry _ ih => exact .entry hentry (ih hmore)

theorem follow_cons (n : Node) (segment : String) (rest : List String) :
    n.follow (segment :: rest) = (n.step segment).bind (·.follow rest) := by
  rw [follow, List.foldlM_cons]
  rfl

theorem step_of_not_name {n : Node} {segment : String} (h : segment = "" ∨ segment = ".") :
    n.step segment = match n with
      | file _ => none
      | directory _ => some n := by
  cases n with
  | file f => rfl
  | directory entries => exact if_pos h

theorem step_of_name {n : Node} {segment : String} (h : ¬ (segment = "" ∨ segment = ".")) :
    n.step segment = n.child? segment := by
  cases n with
  | file f => rfl
  | directory entries => exact if_neg h

/-- A look-up goes where the names lead, except that no file is found behind a last segment which
is no name. -/
theorem follow_eq_some_iff {m n : Node} {segments : List String} :
    m.follow segments = some n ↔
      m.Leads (Site.names segments) n ∧ ∀ f, n = file f → ¬ Site.Trails segments := by
  induction segments generalizing m with
  | nil =>
    have hnone : ∀ f, n = file f → ¬ Site.Trails [] := fun _ _ => Site.not_trails_nil
    have hnames : Site.names [] = [] := rfl
    rw [hnames, leads_nil_iff, and_iff_left hnone]
    exact Option.some_inj
  | cons segment rest ih =>
    rw [follow_cons]
    by_cases hname : segment = "" ∨ segment = "."
    · rw [step_of_not_name hname, Site.names_cons_of_not_name hname]
      cases m with
      | file f =>
        -- From a file only a path without names leads anywhere, and such a path ends in a slash
        -- or in `.`.
        have hnever : ¬ ((file f).Leads (Site.names rest) n ∧
            ∀ g, n = file g → ¬ Site.Trails (segment :: rest)) := by
          rintro ⟨hleads, hnot⟩
          cases hrest : Site.names rest with
          | nil =>
            rw [hrest, leads_nil_iff] at hleads
            refine hnot f hleads.symm (Site.trails_of_names_eq_nil ?_)
            rw [Site.names_cons_of_not_name hname, hrest]
          | cons name more =>
            rw [hrest] at hleads
            cases hleads
        simp [hnever]
      | directory entries =>
        rw [Option.bind_some, ih]
        cases rest with
        | nil =>
          -- No segment is left, so the end is the directory itself.
          refine and_congr_right fun hleads => ?_
          cases hleads
          exact ⟨nofun, nofun⟩
        | cons next more => simp only [Site.trails_cons_cons]
    · rw [step_of_name hname, Site.names_cons_of_name hname, leads_cons_iff]
      have htrails : Site.Trails (segment :: rest) ↔ Site.Trails rest := by
        cases rest with
        | nil => simp [Site.trails_singleton, hname, Site.not_trails_nil]
        | cons next more => exact Site.trails_cons_cons
      simp only [Option.bind_eq_some_iff, ih, htrails]
      constructor
      · rintro ⟨next, hchild, hleads, hnot⟩
        exact ⟨⟨next, hchild, hleads⟩, hnot⟩
      · rintro ⟨⟨next, hchild, hleads⟩, hnot⟩
        exact ⟨next, hchild, hleads, hnot⟩

end Node

namespace Site

/-! ### What is found -/

/-- How a path brings a file, unless it is longer than the file system takes: its names lead to the
file, and a name is the last of its segments; or they lead to a directory, and the file is the index
of it. -/
inductive Brings (s : Site) (root : Node) (path : String) : Located → Prop where
  | file {f : File} : s.fullLength path ≤ maxPath →
      root.Leads (names (segments path)) (.file f) → ¬ Trails (segments path) →
      Brings s root path ⟨names (segments path), f⟩
  | index {entries : List (String × Node)} {f : File} : s.indexLength path ≤ maxPath →
      root.Leads (names (segments path)) (.directory entries) →
      entries.lookup indexName = some (.file f) →
      Brings s root path ⟨names (segments path) ++ [indexName], f⟩

theorem fullLength_le_indexLength (s : Site) (path : String) :
    s.fullLength path ≤ s.indexLength path := by
  simp only [indexLength]
  omega

theorem locate?_eq_some_iff {s : Site} {root : Node} {path : String} {found : Located} :
    s.locate? root path = some found ↔ s.Brings root path found := by
  rw [locate?]
  constructor
  · intro h
    split at h
    · cases h
    · rename_i hfits
      split at h
      · cases h
      · rename_i f hfollow
        obtain ⟨hleads, hlast⟩ := Node.follow_eq_some_iff.1 hfollow
        cases h
        exact .file (Nat.le_of_not_lt hfits) hleads (hlast f rfl)
      · rename_i entries hfollow
        obtain ⟨hleads, -⟩ := Node.follow_eq_some_iff.1 hfollow
        split at h
        · cases h
        · rename_i hindex
          split at h
          · rename_i f hentry
            cases h
            exact .index (Nat.le_of_not_lt hindex) hleads hentry
          · cases h
  · intro h
    cases h with
    | file hfits hleads hlast =>
      have hfollow := Node.follow_eq_some_iff.2 ⟨hleads, fun _ _ => hlast⟩
      rw [if_neg (Nat.not_lt.2 hfits), hfollow]
    | index hindex hleads hentry =>
      have hfits := Nat.le_trans (s.fullLength_le_indexLength path) hindex
      have hfollow := Node.follow_eq_some_iff.2 ⟨hleads, nofun⟩
      rw [if_neg (Nat.not_lt.2 hfits), hfollow]
      dsimp only
      rw [if_neg (Nat.not_lt.2 hindex), hentry]

/-- What is found lies where its names lead from the root. -/
theorem Brings.leads {s : Site} {root : Node} {path : String} {found : Located}
    (h : s.Brings root path found) : root.Leads found.path (.file found.file) := by
  cases h with
  | file _ hleads _ => exact hleads
  | index _ hleads hentry => exact hleads.append (.entry hentry (.here _))

theorem Brings.isName {s : Site} {root : Node} {path : String} {found : Located}
    (h : s.Brings root path found) (hup : ".." ∉ segments path) :
    ∀ name ∈ found.path, IsName name := by
  cases h with
  | file _ _ _ => exact fun _ hmem => isName_of_mem_names hup hmem
  | index _ _ _ =>
    intro name hmem
    obtain hmem | hmem := List.mem_append.1 hmem
    · exact isName_of_mem_names hup hmem
    · cases List.mem_singleton.1 hmem
      exact isName_indexName

section
variable {s : Site} {root : Node} {uri : String}

theorem find_of_up (hr : s.root = some root) (hup : ".." ∈ segments (pathOfUri uri)) :
    s.find uri = .error .notFound := by
  rw [find, hr]
  exact if_pos hup

theorem find_of_not_up (hr : s.root = some root) (hup : ".." ∉ segments (pathOfUri uri)) :
    s.find uri = match s.locate? root (pathOfUri uri) with
      | some found => .ok found
      | none => .error .notFound := by
  rw [find, hr]
  exact if_neg hup

theorem find_eq_ok_iff (hr : s.root = some root) (hup : ".." ∉ segments (pathOfUri uri))
    {found : Located} : s.find uri = .ok found ↔ s.Brings root (pathOfUri uri) found := by
  rw [find_of_not_up hr hup, ← locate?_eq_some_iff]
  cases s.locate? root (pathOfUri uri) with
  | none => exact ⟨nofun, nofun⟩
  | some other => exact ⟨fun h => by cases h; rfl, fun h => by cases h; rfl⟩

theorem find_of_nothing (hr : s.root = some root)
    (hnone : ¬ ∃ found, s.Brings root (pathOfUri uri) found) : s.find uri = .error .notFound := by
  by_cases hup : ".." ∈ segments (pathOfUri uri)
  · exact find_of_up hr hup
  · rw [find_of_not_up hr hup]
    cases hlocate : s.locate? root (pathOfUri uri) with
    | none => rfl
    | some found => exact absurd ⟨found, locate?_eq_some_iff.1 hlocate⟩ hnone

theorem brings_of_find (hr : s.root = some root) {found : Located} (h : s.find uri = .ok found) :
    ".." ∉ segments (pathOfUri uri) ∧ s.Brings root (pathOfUri uri) found := by
  by_cases hup : ".." ∈ segments (pathOfUri uri)
  · rw [find_of_up hr hup] at h
    cases h
  · exact ⟨hup, (find_eq_ok_iff hr hup).1 h⟩

end

/-- The path of a URI is what stands behind its first slashes and before its query or fragment, and
its segments stand between the slashes in it. With a segment `..` nothing is found; without one,
just the file that the path brings is, and there is no error but that it is missing. The names of
what is found lead to it from the root. Slashes before the URI and a query or a fragment behind it
change nothing. -/
theorem found_below_root (root : Node) (rootLength : Nat) (uri : String) :
    let s : Site := { root := some root, rootLength }
    let path := pathOfUri uri
    (HasPath uri path ∧ ∀ other, HasPath uri other → other = path) ∧
    ("/".intercalate (segments path) = path ∧ ∀ segment ∈ segments path, '/' ∉ segment.toList) ∧
    (".." ∈ segments path → s.find uri = .error .notFound) ∧
    (".." ∉ segments path → ∀ found, s.find uri = .ok found ↔ s.Brings root path found) ∧
    ((¬ ∃ found, s.Brings root path found) → s.find uri = .error .notFound) ∧
    (∀ found, s.find uri = .ok found →
      (∀ name ∈ found.path, IsName name) ∧ root.Leads found.path (.file found.file)) ∧
    (∀ n, s.find (String.ofList (List.replicate n '/') ++ uri) = s.find uri) ∧
    ∀ more,
      s.find (uri ++ "?" ++ more) = s.find uri ∧ s.find (uri ++ "#" ++ more) = s.find uri := by
  intro s path
  have hr : s.root = some root := rfl
  refine ⟨⟨hasPath_pathOfUri uri, fun _ hother => hother.eq⟩,
    ⟨intercalate_segments path, fun _ => slash_not_mem_segments⟩, find_of_up hr,
    fun hup _ => find_eq_ok_iff hr hup, find_of_nothing hr, ?_, fun n => s.find_behind n uri,
    fun more => ⟨s.find_before (.inl rfl) uri more, s.find_before (.inr rfl) uri more⟩⟩
  intro found hfound
  obtain ⟨hup, hbrings⟩ := brings_of_find hr hfound
  exact ⟨hbrings.isName hup, hbrings.leads⟩

/-- The index of a directory that is named with a slash and `.` behind it, and a path that leaves
the directory again. -/
theorem found_below_root_docs :
    let docs : Node :=
      .directory [("docs", .directory [(indexName, .file ⟨[104, 105], none, true⟩)])]
    let s : Site := { root := some docs }
    s.find "//docs/.?v=2" = .ok ⟨["docs", indexName], ⟨[104, 105], none, true⟩⟩ ∧
      s.find "/docs/../docs/" = .error .notFound := by
  intro docs s
  obtain ⟨-, -, -, hfound, -⟩ := found_below_root docs 0 "//docs/.?v=2"
  obtain ⟨-, -, hup, -⟩ := found_below_root docs 0 "/docs/../docs/"
  have hnames : names (segments (pathOfUri "//docs/.?v=2")) = ["docs"] := by decide +kernel
  have hleads : docs.Leads (names (segments (pathOfUri "//docs/.?v=2")))
      (.directory [(indexName, .file ⟨[104, 105], none, true⟩)]) := by
    rw [hnames]
    exact .entry rfl (.here _)
  have hbrings := Brings.index (s := s) (by decide +kernel) hleads rfl
  rw [hnames] at hbrings
  exact ⟨(hfound (by decide +kernel) _).2 hbrings, hup (by decide +kernel)⟩

end Site

end HttpOrigin
