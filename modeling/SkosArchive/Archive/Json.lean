import SkosArchive.Archive.Operation
import SkosArchive.Json.Records

namespace SkosArchive.Answer

def toJson : Answer → Json
  | .done => .null
  | .graph g => .iri g
  | .vocabulary v => .option .iri v
  | .iris l => .list .iri l
  | .snapshot s => s.toJson
  | .snapshots l => .list Snapshot.toJson l
  | .validSnapshot s => .option Snapshot.toJson s
  | .workspace w => w.toJson
  | .count n => .integer n

end SkosArchive.Answer
