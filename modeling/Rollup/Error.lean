import Rollup.Json.Basic

/-!
# Errors

An `Error` is a cause.  Its class, its origin, its wording and the detail that a store adds are
functions of the cause, so each wording is written once.  `Report` is what a caller of an
aggregation is told: the same wording under a coarser kind.
-/

namespace Rollup

/-- How an error is classified. -/
inductive ErrorClass
  | corruption
  | notFound
  | internal
  | unsupported
  | invariantViolation
deriving Repr, DecidableEq

/-- The part of the system that an error comes from. -/
inductive Origin
  | config
  | ingest
  | query
  | serialize
  | store
deriving Repr, DecidableEq

/-- Why a query cannot be compiled. -/
inductive QueryError
  | emptyArgument (verb argument : String)
  | unsupportedDateFormat (format : String)
deriving Repr, DecidableEq

/-- Why a configuration is refused. -/
inductive ConfigError
  | malformed
  | noWorkers
  | emptyChainStore
deriving Repr, DecidableEq

/-- The cause of a failure. -/
inductive Error
  /-- A failure described by whoever reports it. -/
  | reported (cls : ErrorClass) (origin : Origin) (message : String)
  /-- A store has nothing under this key. -/
  | keyNotFound (key : String)
  /-- A text is not the JSON text of an object. -/
  | notADocument
  /-- The append markers of a store are used up. -/
  | markersExhausted
  /-- A worker of a commit cycle crashed. -/
  | workerCrashed
  /-- The leader of a commit cycle crashed. -/
  | cycleAborted
  | badQuery (cause : QueryError)
  | badConfig (cause : ConfigError)
deriving Repr, DecidableEq

/-- What a store adds to an error about its contents. -/
inductive StoreDetail
  | notFound (key : String)
  | corrupt (message : String)
  | invariantViolation (message : String)
deriving Repr, DecidableEq

namespace ErrorClass

/-- The name of a class in messages. -/
def label : ErrorClass → String
  | corruption => "corruption"
  | notFound => "not_found"
  | internal => "internal"
  | unsupported => "unsupported"
  | invariantViolation => "invariant_violation"

end ErrorClass

namespace Origin

/-- The name of an origin in messages. -/
def label : Origin → String
  | config => "config"
  | ingest => "ingest"
  | query => "query"
  | serialize => "serialize"
  | store => "store"

/-- The name of an origin in reports. -/
def title : Origin → String
  | config => "Config"
  | ingest => "Ingest"
  | query => "Query"
  | serialize => "Serialize"
  | store => "Store"

end Origin

/-- The wording of a query error. -/
def QueryError.message : QueryError → String
  | emptyArgument verb argument => verb ++ " requires a non-empty " ++ argument
  | unsupportedDateFormat format =>
    "unsupported date format '" ++ format ++ "' (only 'Days' is supported)"

/-- The wording of a configuration error. -/
def ConfigError.message : ConfigError → String
  | malformed => "invalid engine config"
  | noWorkers => "commit_workers must be at least 1"
  | emptyChainStore => "chain_store must not be empty"

namespace Error

/-- The class of a cause. -/
def cls : Error → ErrorClass
  | reported c _ _ => c
  | keyNotFound _ => .notFound
  | notADocument => .corruption
  | markersExhausted => .invariantViolation
  | workerCrashed | cycleAborted => .internal
  | badQuery _ => .invariantViolation
  | badConfig _ => .unsupported

/-- The origin of a cause. -/
def origin : Error → Origin
  | reported _ o _ => o
  | keyNotFound _ | markersExhausted => .store
  | notADocument => .serialize
  | workerCrashed | cycleAborted => .ingest
  | badQuery _ => .query
  | badConfig _ => .config

/-- The wording of a cause. -/
def message : Error → String
  | reported _ _ m => m
  | keyNotFound key => "store key not found: " ++ key
  | notADocument => "document is not a JSON object"
  | markersExhausted => "append key space exhausted for in-memory store"
  | workerCrashed => "commit worker panicked"
  | cycleAborted => "commit cycle aborted before completion"
  | badQuery e => e.message
  | badConfig e => e.message

/-- The wording with origin and class in front. -/
def fullMessage (e : Error) : String :=
  e.origin.label ++ ":" ++ e.cls.label ++ ": " ++ e.message

/-- What the store adds to a cause. -/
def detail? : Error → Option StoreDetail
  | keyNotFound key => some (.notFound key)
  | e =>
    match e.cls, e.origin with
    | .corruption, .store => some (.corrupt e.message)
    | .invariantViolation, .store => some (.invariantViolation e.message)
    | _, _ => none

/-- Whether a store reports that it has nothing under a key. -/
def isKeyNotFound (e : Error) : Bool :=
  match e.detail? with
  | some (.notFound _) => true
  | _ => false

end Error

/-- The wording of a store's detail. -/
def StoreDetail.message : StoreDetail → String
  | notFound key => "key not found: " ++ key
  | corrupt m => "store corruption: " ++ m
  | invariantViolation m => "store invariant violation: " ++ m

/-! ## Reports -/

/-- What kind of failure a caller is told of. -/
inductive ReportKind
  | queryInvalid
  | queryUnsupported
  | storeNotFound
  | storeUnavailable
  | config
  | internal
deriving Repr, DecidableEq

/-- A failure as a caller of an aggregation sees it. -/
structure Report where
  kind : ReportKind
  origin : Origin
  message : String
deriving Repr, DecidableEq

namespace ReportKind

/-- The family of a kind and its member, if the family has several. -/
def path : ReportKind → String × Option String
  | queryInvalid => ("Query", some "Invalid")
  | queryUnsupported => ("Query", some "Unsupported")
  | storeNotFound => ("Store", some "NotFound")
  | storeUnavailable => ("Store", some "Unavailable")
  | config => ("Config", none)
  | internal => ("Internal", none)

/-- The JSON form of a kind. -/
def toJson (k : ReportKind) : Json :=
  match k.path with
  | (family, some member) => .object [(family, .text member)]
  | (family, none) => .text family

/-- The kind under which a class of errors from an origin is reported. -/
def ofCause : ErrorClass → Origin → ReportKind
  | .notFound, _ => .storeNotFound
  | _, .store => .storeUnavailable
  | .invariantViolation, .query => .queryInvalid
  | _, .config => .config
  | _, _ => .internal

end ReportKind

namespace Report

/-- The report of an error. -/
def ofError (e : Error) : Report := ⟨.ofCause e.cls e.origin, e.origin, e.message⟩

/-- The report of a query that cannot be compiled. -/
def ofQueryError (e : QueryError) : Report :=
  let kind : ReportKind :=
    match e with
    | .emptyArgument _ _ => .queryInvalid
    | .unsupportedDateFormat _ => .queryUnsupported
  ⟨kind, .query, e.message⟩

/-- The report of a configuration that is refused. -/
def ofConfigError (e : ConfigError) : Report := ⟨.config, .config, e.message⟩

/-- The JSON form of a report. -/
def toJson (r : Report) : Json :=
  .object [("kind", r.kind.toJson), ("origin", .text r.origin.title), ("message", .text r.message)]

end Report

end Rollup
