import Nyuka.Packaging.Paths
import Nyuka.Runtime.Net

/-! The semantics of the `html` import, over a library's mutable documents. The library is a
parameter; its nodes are numbers within a document. -/
namespace Nyuka
namespace Runtime

/-- What the library knows a node to be. -/
inductive NodeData where
  | document | fragment | element
  | comment (contents : String)
  | text (contents : String)
  | other
deriving DecidableEq, Repr

/-- The document library. What changes a document answers the changed one. -/
structure DomQuery (Doc : Type) where
  document : String → Doc
  fragment : String → Doc
  root : Doc → ℕ
  /-- Whether a selector can be parsed. -/
  matcher : String → Bool
  trySelect : Doc → ℕ → String → Option (List ℕ)
  data : Doc → ℕ → NodeData
  attr : Doc → ℕ → String → Option String
  text : Doc → ℕ → String
  immediateText : Doc → ℕ → String
  html : Doc → ℕ → String
  baseUri : Doc → ℕ → Option String
  nodeName : Doc → ℕ → Option String
  idAttr : Doc → ℕ → Option String
  className : Doc → ℕ → Option String
  hasClass : Doc → ℕ → String → Bool
  hasAttr : Doc → ℕ → String → Bool
  parent : Doc → ℕ → Option ℕ
  children : Doc → ℕ → List ℕ
  elementChildren : Doc → ℕ → List ℕ
  firstElementChild : Doc → ℕ → Option ℕ
  nextElementSibling : Doc → ℕ → Option ℕ
  prevElementSibling : Doc → ℕ → Option ℕ
  descendants : Doc → ℕ → List ℕ
  setAttr : Doc → ℕ → String → String → Doc
  removeAttr : Doc → ℕ → String → Doc
  setText : Doc → ℕ → String → Doc
  setHtml : Doc → ℕ → String → Doc
  appendHtml : Doc → ℕ → String → Doc
  prependHtml : Doc → ℕ → String → Doc
  addClass : Doc → ℕ → String → Doc
  removeClass : Doc → ℕ → String → Doc
  removeFromParent : Doc → ℕ → Doc

/-- A parsed document and the base URI it was loaded with. -/
structure Html (Doc : Type) where
  doc : Doc
  base : Option String

/-! The codes of the `html` import. -/

namespace HtmlError

/-- The handle is not a node, or does not exist. -/
def invalidDescriptor : ℤ := -1

def invalidString : ℤ := -2

/-- The selector itself could not be parsed. -/
def invalidQuery : ℤ := -4

/-- A legitimate miss. -/
def noResult : ℤ := -5

end HtmlError

namespace Kind

def node : ℤ := 1
def textNode : ℤ := 2
def dataNode : ℤ := 3
def comment : ℤ := 4
def element : ℤ := 5
def elementList : ℤ := 6
def document : ℤ := 7

end Kind

namespace Html
variable {Doc : Type} (dom : DomQuery Doc)

/-- Parses a document, recording the base URI it was loaded with. -/
def parse (html : String) (base : Option String) (fragment : Bool) : Html Doc where
  doc := if fragment then dom.fragment html else dom.document html
  base := base.filter fun b => b ≠ ""

def root (html : Html Doc) : ℕ := dom.root html.doc

/-- Descendants matching a selector, never the node itself. -/
def select (html : Html Doc) (id : ℕ) (selector : String) : Except ℤ (List ℕ) :=
  if dom.matcher selector then
    .ok (((dom.trySelect html.doc id selector).map fun found => found.filter (· ≠ id)).getD [])
  else .error HtmlError.invalidQuery

/-- The first matching descendant. -/
def selectFirst (html : Html Doc) (id : ℕ) (selector : String) : Except ℤ ℕ := do
  match ← select dom html id selector with
  | [] => .error HtmlError.noResult
  | found :: _ => .ok found

/-- The URL the document was loaded from takes precedence over one in its markup. -/
def baseUri (html : Html Doc) (id : ℕ) : Option String :=
  html.base.or (dom.baseUri html.doc id)

/-- Resolves a URL that may be relative. The last argument joins a relative one to a base. -/
def resolve (lib : Libraries) (join : Url → String → Option Url) (base : Option String)
    (value : String) : Option String :=
  if value = "" then none
  else match (lib.parse value).filter fun u => u.Web with
    | some u => some u.text
    | none => do
      let base ← lib.parse (← base)
      (join base value).map Url.text

/-- An attribute's value; the prefix `abs:` asks for it as an absolute URL. -/
def attr (lib : Libraries) (join : Url → String → Option Url) (html : Html Doc) (id : ℕ)
    (key : String) : Except ℤ String :=
  let absolute := "abs:".toList.isPrefixOf key.toList
  let key := if absolute then String.ofList (key.toList.drop 4) else key
  match dom.attr html.doc id key with
  | none => .error HtmlError.noResult
  | some raw =>
    if absolute then
      match resolve lib join (baseUri dom html id) raw with
      | some url => .ok url
      | none => .error HtmlError.noResult
    else .ok raw

/-- Collapses runs of whitespace and trims. -/
def collapse (s : String) : String :=
  String.ofList ([' '].intercalate (Text.words Packaging.isWhitespace s.toList))

/-- All descendant text, with its whitespace collapsed. -/
def text (html : Html Doc) (id : ℕ) : String := collapse (dom.text html.doc id)

/-- Text owned directly by this element. -/
def ownText (html : Html Doc) (id : ℕ) : String := collapse (dom.immediateText html.doc id)

/-- Descendant text as it is. -/
def untrimmedText (html : Html Doc) (id : ℕ) : String := dom.text html.doc id

/-- Markup including the element itself. -/
def outerHtml (html : Html Doc) (id : ℕ) : String := dom.html html.doc id

def tagName (html : Html Doc) (id : ℕ) : Option String := dom.nodeName html.doc id

def elementId (html : Html Doc) (id : ℕ) : Option String := dom.idAttr html.doc id

def className (html : Html Doc) (id : ℕ) : Option String := dom.className html.doc id

def parent (html : Html Doc) (id : ℕ) : Option ℕ := dom.parent html.doc id

def children (html : Html Doc) (id : ℕ) : List ℕ := dom.children html.doc id

def nextSibling (html : Html Doc) (id : ℕ) : Option ℕ := dom.nextElementSibling html.doc id

def prevSibling (html : Html Doc) (id : ℕ) : Option ℕ := dom.prevElementSibling html.doc id

/-- Siblings of a node, without itself. -/
def siblings (html : Html Doc) (id : ℕ) : List ℕ :=
  match dom.parent html.doc id with
  | none => []
  | some parent => (dom.elementChildren html.doc parent).filter (· ≠ id)

/-- The first element child. -/
def firstChild (html : Html Doc) (id : ℕ) : Option ℕ := dom.firstElementChild html.doc id

/-- The last element child. -/
def lastChild (html : Html Doc) (id : ℕ) : Option ℕ := (dom.elementChildren html.doc id).getLast?

/-- Escapes text for inclusion in markup. -/
def escape (text : String) : String :=
  String.ofList (text.toList.flatMap fun c =>
    if c = '&' then "&amp;".toList
    else if c = '<' then "&lt;".toList
    else if c = '>' then "&gt;".toList
    else if c = '"' then "&quot;".toList
    else if c = '\'' then "&#39;".toList
    else [c])

/-- Decodes entities, by parsing the text as a fragment and reading it back. -/
def unescape (text : String) : String :=
  let doc := dom.fragment text
  dom.text doc (dom.root doc)

def hasClass (html : Html Doc) (id : ℕ) (name : String) : Bool := dom.hasClass html.doc id name

def hasAttr (html : Html Doc) (id : ℕ) (name : String) : Bool := dom.hasAttr html.doc id name

/-- A node whose text is element data rather than prose: that of a script or a style. -/
def isDataNode (html : Html Doc) (id : ℕ) : Bool :=
  match dom.data html.doc id with
  | .text _ =>
    match (dom.parent html.doc id).bind (dom.nodeName html.doc) with
    | some tag =>
      let tag := tag.toList.map Char.toLower
      tag = "script".toList || tag = "style".toList
    | none => false
  | _ => false

/-- The raw contents of a text or comment node. -/
def nodeContents (html : Html Doc) (id : ℕ) : Option String :=
  match dom.data html.doc id with
  | .text contents | .comment contents => some contents
  | _ => none

def nodeKind (html : Html Doc) (id : ℕ) : ℤ :=
  match dom.data html.doc id with
  | .document | .fragment => Kind.document
  | .element => Kind.element
  | .comment _ => Kind.comment
  | .text _ => if isDataNode dom html id then Kind.dataNode else Kind.textNode
  | .other => Kind.node

/-- A node's data: the contents of a comment or a data node, and for an element those of every data
node beneath it, joined. -/
def data (html : Html Doc) (id : ℕ) : Option String :=
  match dom.data html.doc id with
  | .comment _ => some ((nodeContents dom html id).getD "")
  | .element =>
    some (((dom.descendants html.doc id).filter (isDataNode dom html)).foldl
      (fun out node => out ++ (nodeContents dom html node).getD "") "")
  | _ =>
    if isDataNode dom html id then some ((nodeContents dom html id).getD "") else none

/-! Mutation, of the document that its handles share. -/

def setAttr (html : Html Doc) (id : ℕ) (name value : String) : Html Doc :=
  { html with doc := dom.setAttr html.doc id name value }

def removeAttr (html : Html Doc) (id : ℕ) (name : String) : Html Doc :=
  { html with doc := dom.removeAttr html.doc id name }

def setText (html : Html Doc) (id : ℕ) (text : String) : Html Doc :=
  { html with doc := dom.setText html.doc id text }

def setHtml (html : Html Doc) (id : ℕ) (markup : String) : Html Doc :=
  { html with doc := dom.setHtml html.doc id markup }

def append (html : Html Doc) (id : ℕ) (markup : String) : Html Doc :=
  { html with doc := dom.appendHtml html.doc id markup }

def prepend (html : Html Doc) (id : ℕ) (markup : String) : Html Doc :=
  { html with doc := dom.prependHtml html.doc id markup }

def remove (html : Html Doc) (id : ℕ) : Html Doc :=
  { html with doc := dom.removeFromParent html.doc id }

def addClass (html : Html Doc) (id : ℕ) (name : String) : Html Doc :=
  { html with doc := dom.addClass html.doc id name }

def removeClass (html : Html Doc) (id : ℕ) (name : String) : Html Doc :=
  { html with doc := dom.removeClass html.doc id name }

end Html

end Runtime
end Nyuka
