import Ese.Catalog.Entry
import Ese.Layout
import Ese.Page.Header
import Ese.Text.Compressed
/-!
Log events: what is worth telling while a file is read, each with its level, the part of the reader
it comes from and its wording.
-/

namespace Ese.Trace

inductive Level where
  | trace
  | debug
  | info
  | warn
  deriving DecidableEq, Repr

def Level.name : Level → String
  | trace => "TRACE"
  | debug => "DEBUG"
  | info => "INFO"
  | warn => "WARN"

/-- What there is to tell about a record while it is decoded. -/
inductive Remark where
  | columnNotListed (id : UInt16) (table : String)
  | lzxpressKept (length : Nat)
  | textKeptRaw (column : String) (encoding : Text.Compressed.Encoding)
  deriving DecidableEq, Repr

inductive Event where
  | dirtyShutdown
  | opened (layout : Layout)
  | visitingPage (page : PageId) (depth : Nat) (tags : UInt16) (flags : UInt32) (next : PageId)
  | alreadyVisited (page : PageId)
  | catalogRecord (page : PageId) (tag : Nat) (entry : Catalog.Entry)
  | tableListedTwice (name : String)
  | callbackSkipped (name : String)
  | catalogLoaded (tables pages : Nat)
  | longValueSegment (table : String) (page : PageId) (key : Bytes) (length : Nat)
  | longValuesIndexed (table : String) (segments : Nat)
  | inRecord (remark : Remark)
  | rowFailed (table : String) (error : RowError)
  | tableDumped (name : String) (rows failed pages : Nat)
  deriving DecidableEq, Repr

namespace Remark

def level : Remark → Level
  | lzxpressKept _ => .warn
  | columnNotListed .. | textKeptRaw .. => .trace

def target : Remark → String
  | lzxpressKept _ => "ese_reader::record::compression"
  | columnNotListed .. | textKeptRaw .. => "ese_reader::record::decoder"

def message : Remark → String
  | columnNotListed .. => "tagged column not in catalog"
  | lzxpressKept _ => "LZXPRESS-compressed text is not supported; keeping raw bytes"
  | textKeptRaw .. => "compressed text kept raw"

end Remark

namespace Event

def level : Event → Level
  | dirtyShutdown => .warn
  | catalogLoaded .. => .info
  | alreadyVisited _ => .trace
  | inRecord r => r.level
  | _ => .debug

def target : Event → String
  | dirtyShutdown | opened _ => "ese_reader::storage::context"
  | visitingPage .. | alreadyVisited _ => "ese_reader::btree::walker"
  | catalogRecord .. | tableListedTwice _ | callbackSkipped _ | catalogLoaded .. | rowFailed ..
  | tableDumped .. => "ese_reader::catalog"
  | longValueSegment .. | longValuesIndexed .. => "ese_reader::record::long_value"
  | inRecord r => r.target

def message : Event → String
  | dirtyShutdown => "database was not shut down cleanly; reading it without log replay"
  | opened _ => "opened ESE file"
  | visitingPage .. => "visiting page"
  | alreadyVisited _ => "page already visited"
  | catalogRecord .. => "catalog record"
  | tableListedTwice _ => "table listed twice; keeping the later definition"
  | callbackSkipped _ => "skipping callback record"
  | catalogLoaded .. => "catalog loaded"
  | longValueSegment .. => "long value segment"
  | longValuesIndexed .. => "long value index built"
  | inRecord r => r.message
  | rowFailed .. => "row failed to decode"
  | tableDumped .. => "table dumped"

def line (e : Event) : String := s!"{e.level.name} {e.target}: {e.message}"

end Event

end Ese.Trace
