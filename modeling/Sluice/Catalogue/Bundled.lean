import Sluice.Catalogue

/-! The catalogue that is used when none is given: the tasks that read, write, sort, merge and
filter map data. -/

namespace Sluice.Catalogue.Bundled

def entity : Slot :=
  ⟨.entity, true, ""⟩

def change : Slot :=
  ⟨.change, true, ""⟩

def dataset : Slot :=
  ⟨.dataset, true, ""⟩

def leading (name default : String) : Parameter :=
  ⟨name, some default, true, false, ""⟩

def keyed (name default : String) : Parameter :=
  ⟨name, some default, false, false, ""⟩

def unset (name : String) : Parameter :=
  ⟨name, none, false, false, ""⟩

def readXml : Task :=
  { name := "read-xml"
    shortName := .text "rx"
    description := "Reads the current contents of an OSM XML file."
    parameters := [
      leading "file" "dump.osm",
      keyed "enableDateParsing" "yes",
      keyed "compressionMethod" "none"]
    inputs := []
    outputs := [entity] }

def readXmlChange : Task :=
  { name := "read-xml-change"
    shortName := .text "rxc"
    description := "Reads the contents of an OSM XML change file."
    parameters := [
      leading "file" "change.osc",
      keyed "enableDateParsing" "yes",
      keyed "compressionMethod" "none"]
    inputs := []
    outputs := [change] }

def writeXml : Task :=
  { name := "write-xml"
    shortName := .text "wx"
    description := "Writes data to an OSM XML file."
    parameters := [leading "file" "dump.osm", keyed "compressionMethod" "none"]
    inputs := [entity]
    outputs := [] }

def writeXmlChange : Task :=
  { name := "write-xml-change"
    shortName := .text "wxc"
    description := "Writes changes to an OSM XML change file."
    parameters := [leading "file" "change.osc", keyed "compressionMethod" "none"]
    inputs := [change]
    outputs := [] }

def readPbf : Task :=
  { name := "read-pbf"
    shortName := .text "rb"
    description := "Reads the current contents of an OSM binary file."
    parameters := [leading "file" "dump.osm.pbf"]
    inputs := []
    outputs := [entity] }

def writePbf : Task :=
  { name := "write-pbf"
    shortName := .text "wb"
    description := "Writes data to an OSM binary file."
    parameters := [
      leading "file" "dump.osm.pbf",
      keyed "omitmetadata" "false",
      keyed "usedense" "true",
      keyed "compress" "deflate"]
    inputs := [entity]
    outputs := [] }

def readEmpty : Task :=
  { name := "read-empty"
    shortName := .text "rem"
    description := "Produces an empty entity stream."
    parameters := []
    inputs := []
    outputs := [entity] }

def writeNull : Task :=
  { name := "write-null"
    shortName := .text "wn"
    description := "Discards all input data."
    parameters := []
    inputs := [entity]
    outputs := [] }

def writeNullChange : Task :=
  { name := "write-null-change"
    shortName := .text "wnc"
    description := "Discards all input change data."
    parameters := []
    inputs := [change]
    outputs := [] }

def reportEntity : Task :=
  { name := "report-entity"
    shortName := .text "re"
    description := "Writes a summary of the entity stream."
    parameters := [leading "file" "entity-report.txt"]
    inputs := [entity]
    outputs := [] }

def merge : Task :=
  { name := "merge"
    shortName := .text "m"
    description := "Merges the contents of two entity streams."
    parameters := [keyed "conflictResolutionMethod" "timestamp", keyed "bufferCapacity" "20"]
    inputs := [entity, entity]
    outputs := [entity] }

def mergeChange : Task :=
  { name := "merge-change"
    shortName := .text "mc"
    description := "Merges the contents of two change streams."
    parameters := [keyed "conflictResolutionMethod" "timestamp"]
    inputs := [change, change]
    outputs := [change] }

def sort : Task :=
  { name := "sort"
    shortName := .text "s"
    description := "Sorts all data in an entity stream."
    parameters := [leading "type" "TypeThenId"]
    inputs := [entity]
    outputs := [entity] }

def boundingBox : Task :=
  { name := "bounding-box"
    shortName := .text "bb"
    description := "Extracts data within a bounding box."
    parameters := [
      keyed "left" "-180",
      keyed "right" "180",
      keyed "top" "90",
      keyed "bottom" "-90",
      keyed "completeWays" "no",
      keyed "completeRelations" "no"]
    inputs := [entity]
    outputs := [entity] }

def boundingPolygon : Task :=
  { name := "bounding-polygon"
    shortName := .text "bp"
    description := "Extracts data within a polygon."
    parameters := [leading "file" "polygon.txt", keyed "completeWays" "no"]
    inputs := [entity]
    outputs := [entity] }

def tagFilter : Task :=
  { name := "tag-filter"
    shortName := .text "tf"
    description := "Filters entities by their tags."
    parameters := [⟨"filter", none, true, true, "e.g. accept-ways highway=*"⟩]
    inputs := [entity]
    outputs := [entity] }

def nodeKey : Task :=
  { name := "node-key"
    shortName := .text "nk"
    description := "Keeps only nodes carrying one of the listed keys."
    parameters := [unset "keyList"]
    inputs := [entity]
    outputs := [entity] }

def usedNode : Task :=
  { name := "used-node"
    shortName := .text "un"
    description := "Drops nodes not referenced by any way."
    parameters := [keyed "idTrackerType" "Dynamic"]
    inputs := [entity]
    outputs := [entity] }

def buffer : Task :=
  { name := "buffer"
    shortName := .text "b"
    description := "Buffers the entity stream in a separate thread."
    parameters := [keyed "bufferCapacity" "100"]
    inputs := [entity]
    outputs := [entity] }

def logProgress : Task :=
  { name := "log-progress"
    shortName := .text "lp"
    description := "Logs progress of the entity stream."
    parameters := [keyed "interval" "5"]
    inputs := [entity]
    outputs := [entity] }

def deriveChange : Task :=
  { name := "derive-change"
    shortName := .text "dc"
    description := "Compares two entity streams and produces a change stream."
    parameters := []
    inputs := [{ entity with description := "new data" }, { entity with description := "old data" }]
    outputs := [change] }

def applyChange : Task :=
  { name := "apply-change"
    shortName := .text "ac"
    description := "Applies a change stream to an entity stream."
    parameters := []
    inputs := [entity, change]
    outputs := [entity] }

def simplifyChange : Task :=
  { name := "simplify-change"
    shortName := .text "simc"
    description := "Collapses multiple changes of one entity into one."
    parameters := []
    inputs := [change]
    outputs := [change] }

def readPgsql : Task :=
  { name := "read-pgsql"
    shortName := .text "rp"
    description := "Opens a PostgreSQL snapshot database as a dataset."
    parameters := [
      keyed "host" "localhost",
      keyed "database" "osm",
      keyed "user" "osm",
      unset "password"]
    inputs := []
    outputs := [dataset] }

def datasetBoundingBox : Task :=
  { name := "dataset-bounding-box"
    shortName := .text "dbb"
    description := "Extracts a bounding box from a dataset."
    parameters := [
      keyed "left" "-180",
      keyed "right" "180",
      keyed "top" "90",
      keyed "bottom" "-90",
      keyed "completeWays" "no"]
    inputs := [dataset]
    outputs := [entity] }

def datasetDump : Task :=
  { name := "dataset-dump"
    shortName := .text "dd"
    description := "Dumps the whole dataset as an entity stream."
    parameters := []
    inputs := [dataset]
    outputs := [entity] }

def tasks : List Task :=
  [readXml, readXmlChange, writeXml, writeXmlChange, readPbf, writePbf, readEmpty, writeNull,
    writeNullChange, reportEntity, merge, mergeChange, sort, boundingBox, boundingPolygon,
    tagFilter, nodeKey, usedNode, buffer, logProgress, deriveChange, applyChange, simplifyChange,
    readPgsql, datasetBoundingBox, datasetDump]

end Sluice.Catalogue.Bundled

namespace Sluice.Catalogue

def bundled : Catalogue :=
  Bundled.tasks.foldl (fun c t => (c.register t).1) empty

/-- A catalogue without tasks stands for the bundled one. -/
def orBundled (c : Catalogue) : Catalogue :=
  if c.tasks.isEmpty then bundled else c

end Sluice.Catalogue
