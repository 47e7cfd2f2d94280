import Barrage.Digest.Blake3
import Barrage.Expr.Value

/-!
# Identity of compile sites

What is recorded in one run of the program is served in another, so a compile site needs a name that both
runs agree on. It is made of the kind of the site and a digest of the key of its source.

## Main definitions

* `SiteKind`, `SiteKey`: kinds of compile sites and the keys of their sources
* `FileId`: the name of a source
* `SiteKey.hash`, `FileId.identify`: the digest of a key, and the name made of it
-/

namespace Barrage

/-- What an expression was compiled for. -/
inductive SiteKind where
  /-- An expression of a pattern document. -/
  | scriptDump
  /-- A text that is converted by itself. -/
  | textConversion
  /-- A text under a key of the caller's choice. -/
  | manualReflection
deriving DecidableEq, Repr

/-- What names of a kind begin with. No two kinds give the same name, even for equal keys. -/
def SiteKind.tag : SiteKind → String
  | scriptDump => "Sm"
  | textConversion => "Into"
  | manualReflection => "Manual"

/-- The key of a source. -/
inductive SiteKey where
  | text (s : String)
  | path (s : String)
  | bytes (bs : List UInt8)

/-- The bytes of a key. Paths are the same with either kind of separator. -/
def SiteKey.content : SiteKey → List UInt8
  | text s => s.toUTF8.toList
  | path s => (String.ofList (s.toList.map fun c => if c = '\\' then '/' else c)).toUTF8.toList
  | bytes bs => bs

/-- The digest of a key as a signed word. -/
def SiteKey.hash (key : SiteKey) : Int64 := (Blake3.headWord key.content).toInt64

/-- The name under which the units of one source are recorded and served. -/
structure FileId where
  text : String
deriving DecidableEq, Repr

/-- The name for a key. The digest is shifted so that no name carries a sign. -/
def FileId.identify (kind : SiteKind) (key : SiteKey) : FileId :=
  ⟨kind.tag ++ toString (key.hash.toInt + 0x8000000000000000)⟩

end Barrage
