import Mathlib.Data.List.TakeWhile
import Oak.Lib.Find
import Oak.Storage.Fragments

/-!
# The address of a library project

The address of a project is the address of the library with the selector `?project=` and the uuid
behind it, as one string. It is taken apart again by `StorageUri::parse`, which looks for the
scheme, and by `parse_target`, which looks for the first `?` of the body and for the `&` that
separate the parameters. Nothing is escaped.

* `LibraryConfig` is the configured library: a database file, or a server with its connection
  string.
* Whether a connection string is one is for the driver to say: it is the parameter `validPgConn`.

## Main results

* `parseTarget_sqlite_iff`, `parseTarget_pg_iff`: the bodies that are read back, for each backend.
* `projectTarget_iff`: the libraries and uuids whose address is read back.
-/

namespace Oak.Storage

open Oak.Lib (findSplit findSplit_append_self findSplit_append_of_none findSplit_eq_some
  findSplit_eq_none_of_notMem)

/-- `StorageUri`. -/
structure StorageUri where
  scheme : Text
  body : Text
  deriving DecidableEq

/-- `Error`, as far as addresses go. -/
inductive AddressError
  | invalid
  | noBackend
  deriving DecidableEq

/-- `is_scheme`. -/
def isScheme : Text → Bool
  | [] => false
  | c :: cs => c.isAlpha && cs.all fun d => d.isAlphanum || d = '+' || d = '-' || d = '.'

/-- `StorageUri::parse`. What has no scheme is the path of a file. -/
def StorageUri.parse (s : Text) : Except AddressError StorageUri :=
  if s = [] then .error .invalid
  else
    match findSplit "://".toList s with
    | some (scheme, body) => if isScheme scheme then .ok ⟨scheme, body⟩ else .ok ⟨"file".toList, s⟩
    | none => .ok ⟨"file".toList, s⟩

/-- `to_uri_string`. -/
def StorageUri.toUriString (uri : StorageUri) : Text := uri.scheme ++ "://".toList ++ uri.body

/-- `DbTarget`. -/
inductive DbTarget
  | sqlite (path : Text) (project : Option Text)
  | pg (conn : Text) (project : Option Text)
  deriving DecidableEq

/-- `split_once` at a character. -/
def splitOnce (c : Char) (s : Text) : Option (Text × Text) := findSplit [c] s

/-- `split_query`. -/
def splitQuery (body : Text) : Text × Option Text :=
  match splitOnce '?' body with
  | some (base, query) => (base, some query)
  | none => (body, none)

/-- The value of a parameter `k=v` with the key. -/
def pairValue (key pair : Text) : Option Text :=
  match splitOnce '=' pair with
  | some (k, v) => if k = key then some v else none
  | none => none

/-- `query_param`. -/
def queryParam (query : Option Text) (key : Text) : Option Text :=
  query.bind fun q => (q.splitOn '&').findSome? (pairValue key)

/-- The key of the selector. -/
def projectKey : Text := "project".toList

/-- `Path::is_absolute`. -/
def isAbsolute (path : Text) : Bool := path.head? = some '/'

def sqliteScheme : Text := "oakdb+sqlite".toList

def pgScheme : Text := "oakdb+pg".toList

variable (validPgConn : Text → Bool)

/-- `parse_target`. The parameters of a connection string stay with it unless one of them is the
selector. -/
def parseTarget (uri : StorageUri) : Except AddressError DbTarget :=
  let (base, query) := splitQuery uri.body
  if uri.scheme = sqliteScheme then
    if isAbsolute base then .ok (.sqlite base (queryParam query projectKey))
    else .error .invalid
  else if uri.scheme = pgScheme then
    let project := queryParam query projectKey
    let conn := if project.isSome then base else uri.body
    if conn = [] ∨ !validPgConn conn then .error .invalid else .ok (.pg conn project)
  else .error .noBackend

/-- The configured library. -/
inductive LibraryConfig
  /-- The path of the database file, once it was made absolute. -/
  | sqlite (path : Text)
  /-- The `PgUrl` setting, without the blanks around it. -/
  | pg (url : Text)

/-- `strip_prefix`. -/
def stripPrefix (pre s : Text) : Option Text :=
  if pre <+: s then some (s.drop pre.length) else none

/-- The connection string of a server: its url without the scheme. -/
def pgBody (url : Text) : Text :=
  ((stripPrefix "postgres://".toList url).or (stripPrefix "postgresql://".toList url)).getD url

/-- `library_uri`. -/
def libraryUri : LibraryConfig → Text
  | .sqlite path => "oakdb+sqlite://".toList ++ path
  | .pg url => "oakdb+pg://".toList ++ pgBody url

/-- `project_uri`. -/
def projectUri (cfg : LibraryConfig) (uuid : Text) : Except AddressError StorageUri := do
  let uri ← StorageUri.parse (libraryUri cfg)
  StorageUri.parse (uri.toUriString ++ "?project=".toList ++ uuid)

/-- What the backend makes of the address of a project. -/
def projectTarget (cfg : LibraryConfig) (uuid : Text) : Except AddressError DbTarget := do
  parseTarget validPgConn (← projectUri cfg uuid)

/-- The path or the connection string. -/
def LibraryConfig.location : LibraryConfig → Text
  | .sqlite path => path
  | .pg url => pgBody url

/-- The path is absolute, or the connection string is one. -/
def LibraryConfig.Usable : LibraryConfig → Prop
  | .sqlite path => isAbsolute path
  | .pg url => pgBody url ≠ [] ∧ validPgConn (pgBody url)

/-- The project in the library. -/
def LibraryConfig.target : LibraryConfig → Text → DbTarget
  | .sqlite path, uuid => .sqlite path (some uuid)
  | .pg url, uuid => .pg (pgBody url) (some uuid)

/-! ### The parts of an address -/

theorem splitOnce_append {c : Char} {a : Text} (h : c ∉ a) (b : Text) :
    splitOnce c (a ++ c :: b) = some (a, b) := by
  have hself : findSplit [c] (c :: b) = some ([], b) := findSplit_append_self [c] b
  rw [splitOnce, findSplit_append_of_none (findSplit_eq_none_of_notMem h) List.not_mem_nil, hself,
    Option.map_some, List.append_nil]

theorem parse_append {scheme : Text} (hscheme : isScheme scheme)
    (hsep : findSplit "://".toList scheme = none) (body : Text) :
    StorageUri.parse (scheme ++ "://".toList ++ body) = .ok ⟨scheme, body⟩ := by
  have hsplit : findSplit "://".toList (scheme ++ "://".toList ++ body) = some (scheme, body) := by
    have hself : findSplit "://".toList (':' :: ("//".toList ++ body)) = some ([], body) :=
      findSplit_append_self "://".toList body
    have hcolon : ':' ∉ ("://".toList).tail := by decide
    rw [List.append_assoc]
    refine (findSplit_append_of_none hsep hcolon ("//".toList ++ body)).trans ?_
    rw [hself, Option.map_some, List.append_nil]
  have hne : scheme ++ "://".toList ++ body ≠ [] := by
    rw [List.append_assoc]
    exact List.append_ne_nil_of_right_ne_nil _ (List.cons_ne_nil _ _)
  simp only [StorageUri.parse, if_neg hne, hsplit, if_pos hscheme]

theorem takeWhile_eq_self_iff (uuid : Text) :
    (uuid.takeWhile fun c => c ≠ '&') = uuid ↔ '&' ∉ uuid := by
  rw [List.takeWhile_eq_self_iff]
  constructor
  · intro h hamp
    exact of_decide_eq_true (h '&' hamp) rfl
  · exact fun h c hc => decide_eq_true (ne_of_mem_of_not_mem hc h)

theorem queryParam_project (uuid : Text) :
    queryParam (some ("project=".toList ++ uuid)) projectKey =
      some (uuid.takeWhile fun c => c ≠ '&') := by
  have hvalue : ∀ a, pairValue projectKey ("project=".toList ++ a) = some a := by
    intro a
    have hsplit : splitOnce '=' (projectKey ++ '=' :: a) = some (projectKey, a) :=
      splitOnce_append (by decide) a
    have hpair : "project=".toList ++ a = projectKey ++ '=' :: a := rfl
    simp only [pairValue, hpair, hsplit, if_true]
  have hkey : '&' ∉ "project=".toList := by decide
  dsimp only [queryParam, Option.bind_some]
  by_cases hamp : '&' ∈ uuid
  · obtain ⟨a, b, rfl, ha⟩ := List.eq_append_cons_of_mem hamp
    have hnot : '&' ∉ "project=".toList ++ a := fun h => (List.mem_append.1 h).elim hkey ha
    have htake : (a ++ '&' :: b).takeWhile (fun c => decide (c ≠ '&')) = a := by
      have hall : ∀ c ∈ a, decide (c ≠ '&') = true :=
        fun c hc => decide_eq_true (ne_of_mem_of_not_mem hc ha)
      rw [List.takeWhile_append_of_pos hall, List.takeWhile_cons_of_neg (by decide),
        List.append_nil]
    rw [htake, ← List.append_assoc, List.splitOn_append_cons_self_of_not_mem hnot,
      List.findSome?_cons, hvalue]
  · have hnot : '&' ∉ "project=".toList ++ uuid := fun h => (List.mem_append.1 h).elim hkey hamp
    rw [(takeWhile_eq_self_iff uuid).2 hamp, List.splitOn_eq_singleton hnot,
      List.findSome?_singleton, hvalue]

/-! ### Reading an address back -/

/-- The body with the selector, when no `?` stands before it. -/
theorem splitQuery_of_notMem {base : Text} (h : '?' ∉ base) (uuid : Text) :
    splitQuery (base ++ "?project=".toList ++ uuid) = (base, some ("project=".toList ++ uuid)) := by
  have hsplit : splitOnce '?' (base ++ "?project=".toList ++ uuid) =
      some (base, "project=".toList ++ uuid) := by
    rw [List.append_assoc]
    exact splitOnce_append h ("project=".toList ++ uuid)
  simp only [splitQuery, hsplit]

theorem splitQuery_ne {base : Text} (h : '?' ∈ base) (rest : Text) :
    (splitQuery (base ++ rest)).1 ≠ base := by
  obtain ⟨a, b, rfl, ha⟩ := List.eq_append_cons_of_mem h
  have hsplit : splitOnce '?' (a ++ '?' :: b ++ rest) = some (a, b ++ rest) := by
    rw [List.append_assoc]
    exact splitOnce_append ha (b ++ rest)
  simp only [splitQuery, hsplit]
  intro heq
  exact List.cons_ne_nil _ _ (List.self_eq_append_right.1 heq)

theorem parseTarget_sqlite_iff (path uuid : Text) :
    parseTarget validPgConn ⟨sqliteScheme, path ++ "?project=".toList ++ uuid⟩ =
      .ok (.sqlite path (some uuid)) ↔ isAbsolute path ∧ '?' ∉ path ∧ '&' ∉ uuid := by
  dsimp only [parseTarget]
  rw [if_pos rfl]
  by_cases hmark : '?' ∈ path
  · refine iff_of_false ?_ fun h => h.2.1 hmark
    intro h
    split_ifs at h
    · have hpath := (DbTarget.sqlite.inj (Except.ok.inj h)).1
      rw [List.append_assoc] at hpath
      exact splitQuery_ne hmark _ hpath
  · rw [splitQuery_of_notMem hmark, queryParam_project, and_iff_right hmark]
    split_ifs with habs
    · rw [and_iff_right habs, ← takeWhile_eq_self_iff]
      simp only [Except.ok.injEq, DbTarget.sqlite.injEq, true_and, Option.some.injEq]
    · exact iff_of_false nofun fun h => habs h.1

theorem parseTarget_pg_iff (conn uuid : Text) :
    parseTarget validPgConn ⟨pgScheme, conn ++ "?project=".toList ++ uuid⟩ =
      .ok (.pg conn (some uuid)) ↔
        (conn ≠ [] ∧ validPgConn conn) ∧ '?' ∉ conn ∧ '&' ∉ uuid := by
  dsimp only [parseTarget]
  rw [if_neg (by decide), if_pos rfl]
  by_cases hmark : '?' ∈ conn
  · refine iff_of_false ?_ fun h => h.2.1 hmark
    intro h
    split_ifs at h
    · -- the parameters of the connection string are cut off
      have hconn := (DbTarget.pg.inj (Except.ok.inj h)).1
      rw [List.append_assoc] at hconn
      exact splitQuery_ne hmark _ hconn
    · -- the selector stays with the connection string
      have hconn := (DbTarget.pg.inj (Except.ok.inj h)).1
      rw [List.append_assoc] at hconn
      exact List.append_ne_nil_of_left_ne_nil (List.cons_ne_nil _ _) _
        (List.append_right_eq_self.1 hconn)
  · rw [splitQuery_of_notMem hmark, queryParam_project, and_iff_right hmark]
    simp only [Option.isSome_some, if_true]
    split_ifs with hbad
    · refine iff_of_false nofun fun h => ?_
      rcases hbad with hnil | hvalid
      · exact h.1.1 hnil
      · rw [h.1.2] at hvalid
        exact nomatch hvalid
    · rw [not_or] at hbad
      have hvalid : validPgConn conn = true := by
        simpa only [Bool.not_eq_true, Bool.not_eq_false'] using hbad.2
      rw [and_iff_right ⟨hbad.1, hvalid⟩, ← takeWhile_eq_self_iff]
      simp only [Except.ok.injEq, DbTarget.pg.injEq, true_and, Option.some.injEq]

/-- Both parses find the scheme that the address of the library begins with. -/
theorem projectUri_eq {cfg : LibraryConfig} {scheme body : Text} (hscheme : isScheme scheme)
    (hsep : findSplit "://".toList scheme = none)
    (hlib : libraryUri cfg = scheme ++ "://".toList ++ body) (uuid : Text) :
    projectUri cfg uuid = .ok ⟨scheme, body ++ "?project=".toList ++ uuid⟩ := by
  have haddress : StorageUri.toUriString ⟨scheme, body⟩ ++ "?project=".toList ++ uuid =
      scheme ++ "://".toList ++ (body ++ "?project=".toList ++ uuid) := by
    simp only [StorageUri.toUriString, List.append_assoc]
  rw [projectUri, hlib, parse_append hscheme hsep]
  change StorageUri.parse (StorageUri.toUriString ⟨scheme, body⟩ ++ "?project=".toList ++ uuid) = _
  rw [haddress, parse_append hscheme hsep]

/-- The address of the project is read back as the library and the uuid it was built from, exactly
when the path is absolute or the connection string is one, no `?` stands in it, and no `&` in the
uuid. -/
theorem projectTarget_iff (validPgConn : Text → Bool) (cfg : LibraryConfig) (uuid : Text) :
    projectTarget validPgConn cfg uuid = .ok (cfg.target uuid) ↔
      cfg.Usable validPgConn ∧ '?' ∉ cfg.location ∧ '&' ∉ uuid := by
  cases cfg with
  | sqlite path =>
    have hscheme : isScheme sqliteScheme := by decide
    have hsep : findSplit "://".toList sqliteScheme = none := by decide
    have hlib : libraryUri (.sqlite path) = sqliteScheme ++ "://".toList ++ path := rfl
    rw [projectTarget, projectUri_eq hscheme hsep hlib uuid]
    exact parseTarget_sqlite_iff validPgConn path uuid
  | pg url =>
    have hscheme : isScheme pgScheme := by decide
    have hsep : findSplit "://".toList pgScheme = none := by decide
    have hlib : libraryUri (.pg url) = pgScheme ++ "://".toList ++ pgBody url := rfl
    rw [projectTarget, projectUri_eq hscheme hsep hlib uuid]
    exact parseTarget_pg_iff validPgConn (pgBody url) uuid

/-- The path of a database file with a `?` in it is cut there, and the selector is lost. -/
def markedPath : LibraryConfig := .sqlite "/media/why?/library.db".toList

/-- A server with a parameter in its connection string: the selector is taken for a part of the
parameter. -/
def parameterUrl : LibraryConfig := .pg "postgres://u@h/db?application_name=oak".toList

theorem projectTarget_cut :
    (markedPath.Usable (fun _ => true) ∧ projectTarget (fun _ => true) markedPath "{1}".toList =
      .ok (.sqlite "/media/why".toList none)) ∧
    (parameterUrl.Usable (fun _ => true) ∧ projectTarget (fun _ => true) parameterUrl "{1}".toList =
      .ok (.pg "u@h/db?application_name=oak?project={1}".toList none)) ∧
    ¬∀ cfg : LibraryConfig, cfg.Usable (fun _ => true) →
      projectTarget (fun _ => true) cfg "{1}".toList = .ok (cfg.target "{1}".toList) := by
  have hpath : markedPath.Usable (fun _ => true) ∧
      projectTarget (fun _ => true) markedPath "{1}".toList =
        .ok (.sqlite "/media/why".toList none) :=
    ⟨show isAbsolute "/media/why?/library.db".toList from by decide, by decide⟩
  have hurl : parameterUrl.Usable (fun _ => true) ∧
      projectTarget (fun _ => true) parameterUrl "{1}".toList =
        .ok (.pg "u@h/db?application_name=oak?project={1}".toList none) :=
    ⟨⟨by decide, rfl⟩, by decide⟩
  refine ⟨hpath, hurl, fun h => ?_⟩
  have heq := (h markedPath hpath.1).symm.trans hpath.2
  exact nomatch (DbTarget.sqlite.inj (Except.ok.inj heq)).2

end Oak.Storage
