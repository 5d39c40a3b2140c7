import OpenTube.Common.Printing
import OpenTube.Config.ListenAddress
import OpenTube.Config.LookupPath

/-!
# Loading the configuration

`load_config` reads the file, looks for the directives that must be there, sets the
defaults and goes through the tree of settings. `process_conf` writes the path of each
setting into a buffer of its own and hands the value to the function for its type, which
finds the directive by this path.

A directive that is not accepted ends the program with a message. What a run does with
memory that is not its own is not said: it has no configuration, either.
-/

namespace OpenTube

/-! ## What is loaded -/

/-- `u_str_t`, with the memory from `str` on. -/
structure UString where
  str : List UInt8
  len : Nat
deriving DecidableEq, Repr

/-- The text that is sent or compared. -/
def UString.bytes (s : UString) : List UInt8 := s.str.take s.len

/-- `set_ustr`, and `set_cpy_str` of a copy. -/
def setUString (value : List UInt8) : UString := ⟨value ++ [nul], uint value.length⟩

/-- `struct loaded_config`, with `http_port` and `http_server_tcp_addr`. -/
structure LoadedConfig where
  user : Option (List UInt8)
  group : Option (List UInt8)
  pid : Option (List UInt8)
  log : Option (List UInt8)
  scriptInit : Option (List UInt8)
  dbReplicaSet : Option (List UInt8)
  dbServers : Option (List UInt8)
  documentRoot : UString
  tempDir : UString
  data : UString
  templateName : UString
  keepaliveTimeout : UString
  cachePrefix : UString
  keepaliveTimeoutVal : Nat
  keepaliveMaxConnPerClient : Nat
  gzipMinPageSize : Nat
  limitRate : Nat
  limitDelay : Nat
  limitSimThreshold : Nat
  workerThreads : Nat
  preallocRequestStructures : Nat
  restartTimeout : Nat
  gzip : Bool
  limitReq : Bool
  limitSimReq : Bool
  gzipLevel : Nat
  cacheUpdate : Nat
  scriptUpdate : Nat
  tplCacheUpdate : Nat
  idleRequestStructures : Nat
  httpPort : Int
  httpServerTcpAddr : UString
deriving DecidableEq, Repr

/-- The variables before `load_config`. -/
def LoadedConfig.zeroed : LoadedConfig :=
  { user := none, group := none, pid := none, log := none, scriptInit := none,
    dbReplicaSet := none, dbServers := none, documentRoot := ⟨[], 0⟩, tempDir := ⟨[], 0⟩,
    data := ⟨[], 0⟩, templateName := ⟨[], 0⟩, keepaliveTimeout := ⟨[], 0⟩,
    cachePrefix := ⟨[], 0⟩, keepaliveTimeoutVal := 0, keepaliveMaxConnPerClient := 0,
    gzipMinPageSize := 0, limitRate := 0, limitDelay := 0, limitSimThreshold := 0,
    workerThreads := 0, preallocRequestStructures := 0, restartTimeout := 0, gzip := false,
    limitReq := false, limitSimReq := false, gzipLevel := 0, cacheUpdate := 0,
    scriptUpdate := 0, tplCacheUpdate := 0, idleRequestStructures := 0, httpPort := 0,
    httpServerTcpAddr := ⟨[], 0⟩ }

/-- `default_config`. -/
def LoadedConfig.defaultConfig (c : LoadedConfig) : LoadedConfig :=
  { c with
    gzip := false
    gzipLevel := 6
    gzipMinPageSize := 64
    limitReq := false
    limitRate := 64
    limitDelay := 30
    limitSimReq := false
    limitSimThreshold := 8
    keepaliveTimeout := ⟨ascii "25" ++ [nul], 2⟩
    keepaliveMaxConnPerClient := 4
    cachePrefix := setUString (ascii "/cache/")
    cacheUpdate := 0
    tplCacheUpdate := 0
    workerThreads := 5
    preallocRequestStructures := 10
    idleRequestStructures := 0
    scriptInit := some (ascii "init.js")
    scriptUpdate := 0
    restartTimeout := 0
    dbReplicaSet := none }

/-- How `load_config` ends without a configuration: with one of its messages, or because
it uses memory that is not its own. -/
inductive LoadError
  | outOfSteps
  | outOfBounds
  | notOpened (path : List UInt8)
  | file (e : ConfigError)
  | required (directive : List UInt8)
  | unknownDirective (key directiveType : List UInt8) (line : Nat)
  | invalidValue (key : List UInt8)
  | addressEmpty
  | invalidPort (port : List UInt8)
  | notAbsolute (key : List UInt8)
  | notReadable (directory : List UInt8)
  | notWritable (directory : List UInt8)
  | gzipLevel
deriving DecidableEq, Repr

/-- `IOAR_R` and `IOAR_RW`. -/
inductive IoAccessRights
  | r
  | rw
deriving DecidableEq, Repr

/-- What `load_config` finds around it: the directories, the byte in front of the copy of
a value, and what allocated memory holds. -/
structure LoadEnv where
  isDirectoryExists : List UInt8 → IoAccessRights → Bool
  before : UInt8
  fresh : Nat → UInt8

namespace LoadEnv

variable (env : LoadEnv)

/-- `allocator_realloc`, which succeeds. -/
def realloc (old : List UInt8) (size : Nat) : List UInt8 :=
  (List.range size).map fun i => old.getD i (env.fresh i)

/-- `allocator_malloc`, which succeeds. -/
def malloc (size : Nat) : List UInt8 := env.realloc [] size

end LoadEnv

abbrev LoadResult := Except LoadError

/-! ## The values of directives -/

/-- The byte at a place of an allocation. -/
def charAt (m : List UInt8) (i : Nat) : LoadResult UInt8 :=
  match m[i]? with
  | some c => .ok c
  | none => .error .outOfBounds

/-- `is_path_absolute`. -/
def isPathAbsolute (path : List UInt8) : Bool := 1 < path.length ∧ path.head? = some slash

/-- The check of `server.pid-file` and `server.log-file`. -/
def checkedFile (key value : List UInt8) : LoadResult (List UInt8) :=
  let len := uint value.length
  if len < 3 ∨ value[len - 1]? = some slash then .error (.invalidValue key)
  else if isPathAbsolute value then .ok value
  else .error (.notAbsolute key)

/-- The value of `http.document-root` and `server.data`: a slash at its end is cut off. -/
def readableDirectory (env : LoadEnv) (value : List UInt8) : LoadResult UString :=
  let dir := setUString value
  (charAt dir.str (uint (dir.len - 1))).bind fun last =>
    let dir := if last = slash then ⟨dir.str.set (dir.len - 1) nul, dir.len - 1⟩ else dir
    let path := dir.str.takeWhile (· ≠ nul)
    if env.isDirectoryExists path .r then .ok dir else .error (.notReadable path)

/-- The value of `http.temp`: it gets a slash at its end, and room for a name. -/
def writableDirectory (env : LoadEnv) (value : List UInt8) : LoadResult UString :=
  let dir := setUString value
  if env.isDirectoryExists value .rw then
    (charAt dir.str (uint (dir.len - 1))).bind fun last =>
      let dir := if last ≠ slash then ⟨dir.str.set dir.len slash, dir.len + 1⟩ else dir
      .ok ⟨env.realloc dir.str (dir.len + 10), dir.len⟩
  else .error (.notWritable value)

/-- The value of `http.cache.prefix`: it gets a slash at its end. -/
def cachePrefix (env : LoadEnv) (key value : List UInt8) : LoadResult UString :=
  let len := int32 value.length
  if len < 2 ∨ value.head? ≠ some slash then .error (.invalidValue key)
  else if value[(len - 1).toNat]? = some slash ∧ len < 3 then .error (.invalidValue key)
  else if value[(len - 1).toNat]? ≠ some slash then
    let len := (len + 1).toNat
    .ok ⟨((env.realloc (value ++ [nul]) (len + 1)).set (len - 1) slash).set len nul, len⟩
  else .ok ⟨value ++ [nul], len.toNat⟩

/-- A value that is one of two words, as `0` and `1`. -/
def oneOf (key value : List UInt8) (zero one : String) : LoadResult Nat :=
  if value = ascii zero then .ok 0
  else if value = ascii one then .ok 1
  else .error (.invalidValue key)

/-- The value of `server.listen`. -/
def listen (env : LoadEnv) (key value : List UInt8) (c : LoadedConfig) :
    LoadResult LoadedConfig :=
  match (processListen env.before value).1 with
  | .addressEmpty => .error .addressEmpty
  | .invalidPort port => .error (.invalidPort port)
  | .invalidValue => .error (.invalidValue key)
  | .accepted addr port => .ok { c with httpPort := port, httpServerTcpAddr := setUString addr }

/-- A number that is at least `least`. -/
def atLeast (least : Int) (key : List UInt8) (value : Int) : LoadResult Nat :=
  if value < least then .error (.invalidValue key) else .ok (uint value)

/-- The value of `http.keepalive.timeout`: the number and its text. -/
def keepaliveTimeout (env : LoadEnv) (key : List UInt8) (value : Int) (c : LoadedConfig) :
    LoadResult LoadedConfig :=
  if value ≤ 0 then .error (.invalidValue key)
  else
    let len := digitsInInt value
    match intToStrInto (env.malloc (len + 1)) value 10 with
    | none => .error .outOfBounds
    | some str => .ok { c with keepaliveTimeout := ⟨str, len⟩, keepaliveTimeoutVal := uint value }

/-! ## The directives -/

/-- A directive with what is done with its value; the key is for the messages. -/
abbrev Directive (α : Type) :=
  String × (List UInt8 → α → LoadedConfig → LoadResult LoadedConfig)

/-- The comparisons of a key with the directives of a type, in their order. -/
def processDirective {α : Type} (directives : List (Directive α)) (directiveType : String)
    (key : List UInt8) (value : α) (line : Nat) (c : LoadedConfig) : LoadResult LoadedConfig :=
  match directives.find? fun d => key = ascii d.1 with
  | some d => d.2 key value c
  | none => .error (.unknownDirective key (ascii directiveType) line)

/-- The directives of `process_directive_string`. -/
def stringDirectives (env : LoadEnv) : List (Directive (List UInt8)) :=
  [("server.listen", listen env),
    ("server.user", fun _ value c => .ok { c with user := some value }),
    ("server.group", fun _ value c => .ok { c with group := some value }),
    ("server.pid-file", fun key value c =>
      (checkedFile key value).map fun file => { c with pid := some file }),
    ("server.log-file", fun key value c =>
      (checkedFile key value).map fun file => { c with log := some file }),
    ("http.document-root", fun _ value c =>
      (readableDirectory env value).map fun dir => { c with documentRoot := dir }),
    ("http.temp", fun _ value c =>
      (writableDirectory env value).map fun dir => { c with tempDir := dir }),
    ("server.data", fun _ value c =>
      (readableDirectory env value).map fun dir => { c with data := dir }),
    ("template.name", fun key value c =>
      if value = [] then .error (.invalidValue key)
      else .ok { c with templateName := setUString value }),
    ("template.update-bytecode", fun key value c =>
      (oneOf key value "never" "source-modified").map fun n => { c with tplCacheUpdate := n }),
    ("http.cache.prefix", fun key value c =>
      (cachePrefix env key value).map fun s => { c with cachePrefix := s }),
    ("http.cache.update", fun key value c =>
      (oneOf key value "never" "source-modified").map fun n => { c with cacheUpdate := n }),
    ("script.init", fun _ value c => .ok { c with scriptInit := some value }),
    ("script.update-bytecode", fun key value c =>
      (oneOf key value "never" "source-modified").map fun n => { c with scriptUpdate := n }),
    ("server.idle-request-structures", fun key value c =>
      (oneOf key value "keep" "free").map fun n => { c with idleRequestStructures := n }),
    ("database.replica-set-name", fun _ value c =>
      .ok { c with dbReplicaSet := if value = [] then c.dbReplicaSet else some value }),
    ("database.servers", fun _ value c => .ok { c with dbServers := some value })]

/-- `process_directive_string`. -/
def processDirectiveString (env : LoadEnv) : List UInt8 → List UInt8 → Nat → LoadedConfig →
    LoadResult LoadedConfig :=
  processDirective (stringDirectives env) "string"

/-- The directives of `process_directive_int`. -/
def intDirectives (env : LoadEnv) : List (Directive Int) :=
  [("server.worker-threads", fun key value c =>
      (atLeast 2 key value).map fun n => { c with workerThreads := n }),
    ("server.pre-allocated-request-structures", fun key value c =>
      (atLeast 2 key value).map fun n => { c with preallocRequestStructures := n }),
    ("server.limits.requests.rate", fun key value c =>
      (atLeast 1 key value).map fun n => { c with limitRate := n }),
    ("server.limits.requests.delay", fun key value c =>
      (atLeast 1 key value).map fun n => { c with limitDelay := n }),
    ("server.limits.simultaneous-requests.threshold", fun key value c =>
      (atLeast 1 key value).map fun n => { c with limitSimThreshold := n }),
    ("http.keepalive.timeout", keepaliveTimeout env),
    ("http.keepalive.max-conn-per-client", fun key value c =>
      (atLeast 1 key value).map fun n => { c with keepaliveMaxConnPerClient := n }),
    ("http.gzip.compression-level", fun _ value c =>
      if value < 1 ∨ 9 < value then .error .gzipLevel
      else .ok { c with gzipLevel := value.toNat }),
    ("http.gzip.threshold", fun key value c =>
      (atLeast 1 key value).map fun n => { c with gzipMinPageSize := n }),
    ("server.restart-timeout", fun key value c =>
      (atLeast 0 key value).map fun n => { c with restartTimeout := n })]

/-- `process_directive_int`. -/
def processDirectiveInt (env : LoadEnv) : List UInt8 → Int → Nat → LoadedConfig →
    LoadResult LoadedConfig :=
  processDirective (intDirectives env) "integer"

/-- `process_directive_int64`: there is no such directive. -/
def processDirectiveInt64 : List UInt8 → Nat → Nat → LoadedConfig → LoadResult LoadedConfig :=
  processDirective [] "integer"

/-- `process_directive_float`: there is no such directive. -/
def processDirectiveFloat : List UInt8 → List UInt8 → Nat → LoadedConfig →
    LoadResult LoadedConfig :=
  processDirective [] "float"

/-- The directives of `process_directive_bool`. -/
def boolDirectives : List (Directive Bool) :=
  [("http.gzip.enable", fun _ value c => .ok { c with gzip := value }),
    ("server.limits.requests.limit", fun _ value c => .ok { c with limitReq := value }),
    ("server.limits.simultaneous-requests.limit", fun _ value c =>
      .ok { c with limitSimReq := value })]

/-- `process_directive_bool`. -/
def processDirectiveBool : List UInt8 → Bool → Nat → LoadedConfig → LoadResult LoadedConfig :=
  processDirective boolDirectives "boolean"

/-! ## The tree -/

/-- `name` of `process_conf`, behind `config_setting_path`, whose result is not looked
at. -/
def settingKey (chain : List (Option (List UInt8))) : LoadResult (List UInt8) :=
  match configSettingPath chain (List.replicate 256 nul) 256 with
  | some r => .ok (r.2.takeWhile (· ≠ nul))
  | none => .error .outOfBounds

/-- The part of `process_conf` for a setting that is not a group. -/
def processValue (env : LoadEnv) (buffer key : List UInt8) (line : Nat) (value : ConfigValue)
    (c : LoadedConfig) : LoadResult LoadedConfig :=
  match value with
  | .string s =>
      -- a group whose loop was not entered has the type of a string, but none
      if s.pos = 0 then .error .outOfBounds
      else processDirectiveString env key (s.read buffer) line c
  | .int n => processDirectiveInt env key (int32 n) line c
  | .int64 n => processDirectiveInt64 key n line c
  | .float text => processDirectiveFloat key text line c
  | .bool b => processDirectiveBool key b line c
  | .group => .ok c
  | .included _ _ => .ok c

/-- `config_setting_name`: an included file has none. -/
def configSettingName (buffer : List UInt8) (name : Option Span) :
    ConfigValue → Option (List UInt8)
  | .included _ _ => none
  | _ => some ((name.map (Span.read buffer)).getD [])

/-- The loop of `process_conf` over the elements of a group, with the names from the
group to the root. -/
def processConf (env : LoadEnv) (buffer : List UInt8) (up : List (Option (List UInt8))) :
    ConfigSettings → LoadedConfig → LoadResult LoadedConfig
  | .nil, c => .ok c
  | .cons name line value childs next, c =>
      let chain := configSettingName buffer name value :: up
      (settingKey chain).bind fun key =>
        (match value with
          | .group => processConf env buffer chain childs c
          | .included _ content => processConf env content chain childs c
          | _ => processValue env buffer key line value c).bind fun c =>
            processConf env buffer up next c

/-- `required_directives`. -/
def requiredDirectives : List (List UInt8) :=
  [ascii "server.listen", ascii "server.user", ascii "server.group", ascii "server.pid-file",
    ascii "server.log-file", ascii "server.data", ascii "http.document-root", ascii "http.temp",
    ascii "http.cache.prefix", ascii "http.cache.update", ascii "template.name",
    ascii "database.servers"]

/-- `load_config`. The root is a group as soon as it has a required directive. -/
def loadConfig (env : LoadEnv) (files : ConfigFiles) (steps : Nat) (path : List UInt8) :
    LoadResult LoadedConfig :=
  match files path with
  | none => .error (.notOpened path)
  | some content =>
      match configRead files steps path content with
      | .outOfSteps => .error .outOfSteps
      | .error e => .error (.file e)
      | .ok (settings, buffer) =>
          match requiredDirectives.find? fun d =>
            (configLookup (settings.doc buffer) d).isNone with
          | some d => .error (.required d)
          | none => processConf env buffer [none] settings LoadedConfig.zeroed.defaultConfig

end OpenTube
