/-
The crawler of help pages (`sap-automate-ingest/src/crawler.rs`): a page
is read into a title, breadcrumbs and a body; a directory is walked with a
stack, and a page at a URL is fetched.

The HTML and the URL parser, the digest of a text and the lossy reading of
a file name are functions that are given. A directory is the tree of what
the file system answers about it.
-/
import SapAutomate.Ingest.Chunker
import SapAutomate.Kb.Schema
import Mathlib.Data.List.DropRight

namespace SapAutomate.Ingest

open Kb

-- ================================================================= pages

/-- `CrawlError`. -/
inductive CrawlError where
  | io (reason : String)
  | http (reason : String)
  | parse (reason : String)

/-- `ParsedPage`. -/
structure ParsedPage where
  title : String
  breadcrumbs : List String
  body : String
  module : Option String

/-- An element: its texts, and its attributes. -/
structure Element where
  text : List String
  attr : String → Option String

/-- A parsed page: what a selector selects, if it is one. -/
structure Html where
  select : String → Option (List Element)

/-- `str::trim` of a text. -/
def trimmed (s : String) : String := String.ofList (trim s.toList)

/-- The text of an element. -/
def Element.joined (el : Element) : String := String.intercalate " " el.text

/-- `pick_text`: the text of the first element of the first selector that
has one. -/
def pickText (doc : Html) : List String → Option String
  | [] => none
  | raw :: selectors =>
      match doc.select raw with
      | some (el :: _) =>
          if trimmed el.joined ≠ "" then some (trimmed el.joined)
          else pickText doc selectors
      | _ => pickText doc selectors

/-- `collect_text`. -/
def collectText (doc : Html) (raw : String) : List String :=
  ((doc.select raw).getD []).map Element.joined

/-- `pick_meta`. -/
def pickMeta (doc : Html) (name : String) : Option String := do
  let el ← (← doc.select ("meta[name=\"" ++ name ++ "\"]")).head?
  el.attr "content"

/-- `split_whitespace`. -/
def splitWhitespace (s : List Char) : List (List Char) :=
  (s.splitOnP Text.isWhitespace).filter (· ≠ [])

/-- `parse_help_portal_html`. -/
def parseHelpPortalHtml (parseDocument : String → Html) (raw : String) :
    Except CrawlError ParsedPage :=
  let doc := parseDocument raw
  let title := trimmed ((pickText doc ["h1", "title"]).getD "")
  let breadcrumbs := ((collectText doc
    "nav.breadcrumb a, .breadcrumb li, [data-breadcrumb] a").map
      trimmed).filter (· ≠ "")
  let body := String.ofList ([' '].intercalate (splitWhitespace ((pickText doc
    ["main", "article", ".content", "#content", "body"]).getD "").toList))
  if title = "" then .error (.parse "missing title")
  else if body = "" then .error (.parse "empty body")
  else .ok ⟨title, breadcrumbs, body, pickMeta doc "module"⟩

-- ================================================================= files

/-- The bytes of a file name. -/
abbrev OsStr := List UInt8

/-- `OsStr::to_str`. -/
def OsStr.toStr (s : OsStr) : Option String :=
  String.fromUTF8? ⟨s.toArray⟩

/-- `rsplit_file_at_dot`: what stands before the last dot of a name, and
behind it. -/
def rsplitFileAtDot (name : OsStr) : Option OsStr × Option OsStr :=
  let after := (name.reverse.takeWhile (· ≠ 46)).reverse
  match name.reverse.dropWhile (· ≠ 46) with
  | [] => (none, some name)
  | _ :: before =>
      if name = [46, 46] ∨ before = [] then (some name, none)
      else (some before.reverse, some after)

/-- `Path::file_stem`, of a path with this name. -/
def fileStem (name : OsStr) : Option OsStr :=
  (rsplitFileAtDot name).1.or (rsplitFileAtDot name).2

/-- `Path::extension`. -/
def extension (name : OsStr) : Option OsStr :=
  (rsplitFileAtDot name).1.bind fun _ => (rsplitFileAtDot name).2

/-- `"html"`. -/
def htmlExtension : OsStr := [104, 116, 109, 108]

/-- A path, as it is displayed, and its last component. -/
structure FilePath where
  display : String
  fileName : Option OsStr

/-- `DirEntry::path` of an entry with this name. -/
def FilePath.join (lossy : OsStr → String) (p : FilePath) (name : OsStr) :
    FilePath where
  display :=
    if p.display.toList.getLast? = some '/' then p.display ++ lossy name
    else p.display ++ "/" ++ lossy name
  fileName := some name

/-- What the file system answers about a path: nothing, what the file
holds, that its directory cannot be read, or what is in it. -/
inductive FsEntry where
  | unreadable (reason : String)
  | file (content : Except String String)
  | closedDir (reason : String)
  | dir (entries : List (OsStr × FsEntry))

/-- `HelpPortalCrawler`. -/
structure HelpPortalCrawler where
  domain : Domain

/-- `HelpPortalCrawler::new`. -/
def HelpPortalCrawler.new : HelpPortalCrawler := ⟨.sapHelp⟩

/-- The document of a page. -/
def pageDocument (contentHash : String → String) (id : DocumentId)
    (domain : Domain) (uri : String) (page : ParsedPage) : Document :=
  { Document.new contentHash id domain uri page.title page.body with
    breadcrumbs := page.breadcrumbs
    metadata := page.module.toList.map fun module => ("module", module) }

variable (contentHash : String → String) (parseDocument : String → Html)

/-- The stem that makes the id of a file. -/
def FilePath.idStem (p : FilePath) : String :=
  ((p.fileName.bind fileStem).bind OsStr.toStr).getD "unknown"

/-- The document of a file's page. -/
def HelpPortalCrawler.fileDocument (crawler : HelpPortalCrawler)
    (p : FilePath) (page : ParsedPage) : Document :=
  pageDocument contentHash (crawler.domain.collection ++ ":" ++ p.idStem)
    crawler.domain ("file://" ++ p.display) page

/-- What a file is read as. -/
def readPage (content : Except String String) : Except CrawlError ParsedPage :=
  match content with
  | .error reason => .error (.io reason)
  | .ok raw => parseHelpPortalHtml parseDocument raw

/-- `HelpPortalCrawler::crawl_file`. -/
def HelpPortalCrawler.crawlFile (crawler : HelpPortalCrawler) (p : FilePath)
    (content : Except String String) : Except CrawlError Document :=
  (readPage parseDocument content).map
    (crawler.fileDocument contentHash p)

mutual

/-- How many entries there are. -/
def FsEntry.count : FsEntry → Nat
  | .dir entries => 1 + countEntries entries
  | _ => 1

def countEntries : List (OsStr × FsEntry) → Nat
  | [] => 0
  | (_, entry) :: entries => entry.count + countEntries entries

end

/-- How many entries are still to be visited. -/
def countStack (stack : List (FilePath × FsEntry)) : Nat :=
  (stack.map fun s => s.2.count).sum

/-- The entries of a directory as they come to lie on the stack: the last
one is on top. -/
def pushed (lossy : OsStr → String) (p : FilePath)
    (entries : List (OsStr × FsEntry)) : List (FilePath × FsEntry) :=
  (entries.map fun e => (p.join lossy e.1, e.2)).reverse

theorem countStack_append (s t : List (FilePath × FsEntry)) :
    countStack (s ++ t) = countStack s + countStack t := by
  unfold countStack
  rw [List.map_append, List.sum_append]

theorem countStack_pushed (lossy : OsStr → String) (p : FilePath)
    (entries : List (OsStr × FsEntry)) :
    countStack (pushed lossy p entries) = countEntries entries := by
  induction entries with
  | nil => rfl
  | cons e entries ih =>
      have hone : pushed lossy p (e :: entries)
          = pushed lossy p entries ++ [(p.join lossy e.1, e.2)] := by
        unfold pushed
        rw [List.map_cons, List.reverse_cons]
      rw [hone, countStack_append, ih, countEntries]
      show countEntries entries + (e.2.count + 0) = _
      omega

/-- The walk of `crawl_directory`; the top of its stack is the head. -/
def HelpPortalCrawler.walk (crawler : HelpPortalCrawler)
    (lossy : OsStr → String) :
    List (FilePath × FsEntry) → Except CrawlError (List Document)
  | [] => .ok []
  | (_, .unreadable reason) :: _ => .error (.io reason)
  | (_, .closedDir reason) :: _ => .error (.io reason)
  | (p, .dir entries) :: stack =>
      crawler.walk lossy (pushed lossy p entries ++ stack)
  | (p, .file content) :: stack =>
      if p.fileName.bind extension = some htmlExtension then
        match crawler.crawlFile contentHash parseDocument p content with
        | .ok d => (crawler.walk lossy stack).map (d :: ·)
        | .error _ => crawler.walk lossy stack
      else crawler.walk lossy stack
termination_by stack => countStack stack
decreasing_by
  · rw [countStack_append, countStack_pushed]
    show _ < (FsEntry.dir entries).count + countStack stack
    rw [FsEntry.count]
    omega
  · show _ < 1 + countStack stack
    omega
  · show _ < 1 + countStack stack
    omega
  · show _ < 1 + countStack stack
    omega

/-- `HelpPortalCrawler::crawl_directory`. -/
def HelpPortalCrawler.crawlDirectory (crawler : HelpPortalCrawler)
    (lossy : OsStr → String) (root : FilePath) (tree : FsEntry) :
    Except CrawlError (List Document) :=
  crawler.walk contentHash parseDocument lossy [(root, tree)]

-- ================================================================== URLs

/-- What is read of a parsed URL, and the query. -/
structure Url where
  path : List Char
  query : Option String

/-- `sha_short`. -/
def shaShort (sha256 : String → Vector UInt8 32) (s : String) : String :=
  String.ofList (((sha256 s).toList.take 8).flatMap Text.hexByte)

/-- `path().trim_start_matches('/').replace('/', "_")`. -/
def mangledPath (path : List Char) : List Char :=
  (path.dropWhile (· = '/')).map fun c => if c = '/' then '_' else c

/-- `derive_id_from_url`. -/
def deriveIdFromUrl (parseUrl : String → Option Url)
    (sha256 : String → Vector UInt8 32) (url : String) (domain : Domain) :
    DocumentId :=
  domain.collection ++ ":" ++ match parseUrl url with
    | some u => String.ofList (mangledPath u.path)
    | none => shaShort sha256 url

/-- A `GET`, with its `If-None-Match`. -/
structure FetchRequest where
  url : String
  ifNoneMatch : Option String

/-- What comes of it: no reply, a 304, a status that is no success, or a
page with its `ETag`. -/
inductive FetchReply where
  | unsent (reason : String)
  | notModified
  | refused (status : String)
  | page (etag : Option String) (body : Except String String)

/-- `HelpPortalCrawler::fetch_url`. -/
def HelpPortalCrawler.fetchUrl (crawler : HelpPortalCrawler)
    (parseUrl : String → Option Url) (sha256 : String → Vector UInt8 32)
    (service : FetchRequest → FetchReply) (url : String)
    (previousEtag : Option String) :
    Except CrawlError (Option (Document × Option String)) :=
  match service ⟨url, previousEtag⟩ with
  | .unsent reason => .error (.http reason)
  | .notModified => .ok none
  | .refused status => .error (.http (url ++ " -> " ++ status))
  | .page _ (.error reason) => .error (.http reason)
  | .page etag (.ok body) =>
      (parseHelpPortalHtml parseDocument body).map fun page =>
        let id := deriveIdFromUrl parseUrl sha256 url crawler.domain
        some ({ pageDocument contentHash id crawler.domain url page with
          etag := etag }, etag)

end SapAutomate.Ingest
