import SemanticClassifier.JsonValue
import SemanticClassifier.RedisWriteback
import SemanticClassifier.TagEscaping

namespace SemanticClassifier.Playground
open Cache Floating Interleaving L2

def lastUserMessage (req : Json) : Option String := do
  let messages ← req.get "messages"
  let items ← messages.asArray
  let message ← items.reverse.find? fun m => (m.get "role").bind Json.asStr = some "user"
  let content ← message.get "content"
  content.asStr

def turns : Json := .object [("messages",.array
  [.object [("role",.string "user"),("content",.string "first")],
    .object [("role",.string "user"),("content",.string "second")],
    .object [("role",.string "assistant"),("content",.string "reply")]])]

example : lastUserMessage turns = some "second" := by decide

-- The codecs of the crates; a text's own bytes are read back as that text.
structure Codec (φ : Type) where
  fromStr : String → Option Json
  errorJson : String → String
  toLeBytes : φ → List UInt8
  blake3 : List UInt8 → Vector UInt8 32
  lossy : List UInt8 → String
  parseF32 : String → Option φ
  lossy_utf8 : ∀ text, lossy (utf8 text) = text

structure RedisResponseCache (φ : Type) where
  threshold : φ
  ttlSecs : Nat

structure ResponseCacheCtx (φ : Type) where
  embed : String → Except String (List φ)
  cache : RedisResponseCache φ
  vllmUrl : String

-- The request's own words and what the cache files it under.
structure Chat (φ : Type) where
  raw : String
  text : String
  model : String
  vector : List φ

inductive ChatError where
  | disabled
  | notJson
  | upstream (message : String)
  deriving DecidableEq

def ChatError.text : ChatError → String
  | .disabled => "response cache route is disabled (LLM_D_SC_VLLM_URL not set)"
  | .notJson => "request body must be JSON"
  | .upstream message => message

-- The values of `x-praxis-cache`.
inductive CacheStatus where
  | hit | miss | bypass
  deriving DecidableEq

abbrev Answer := Except ChatError (Nat × CacheStatus × String)

-- What the upstream's end of a call comes to, as `ureq` reports it.
inductive Response where
  | ok (code : Nat) (body : Except String String)
  | status (code : Nat) (refused : 400 ≤ code) (body : Except String String)
  | transport (error : String)

def forwardUpstream : Response → Except String (Nat × String)
  | .ok code (.ok text) => .ok (code,text)
  | .ok _ (.error e) => .error ("reading upstream body: " ++ e)
  | .status code _ (.ok text) => .ok (code,text)
  | .status code _ (.error _) => .ok (code,"")
  | .transport e => .error ("upstream request failed: " ++ e)

def upstreamUrl (base : String) : String :=
  String.ofList (base.toList.reverse.dropWhile (· = '/')).reverse ++ "/v1/chat/completions"

example : upstreamUrl "http://vllm:8000//" = "http://vllm:8000/v1/chat/completions" := by decide

section Chat
variable {φ : Type} [Floating φ] (codec : Codec φ)

-- How far `handle_chat` gets without asking anybody.
inductive Plan (φ : Type) where
  | refuse (error : ChatError)
  | cached (ctx : ResponseCacheCtx φ) (chat : Chat φ)
  | forward (ctx : ResponseCacheCtx φ)

def plan (ctx : Option (ResponseCacheCtx φ)) (raw : String) : Plan φ :=
  match ctx with
  | none => .refuse .disabled
  | some ctx =>
    match codec.fromStr raw with
    | none => .refuse .notJson
    | some req =>
      let stream := ((req.get "stream").bind Json.asBool).getD false
      let model := ((req.get "model").bind Json.asStr).getD ""
      if stream then .forward ctx
      else
        match lastUserMessage req with
        | none => .forward ctx
        | some text =>
          match ctx.embed text with
          | .error _ => .forward ctx
          | .ok vector => .cached ctx ⟨raw,text,model,vector⟩

def blobOf (chat : Chat φ) : List UInt8 := chat.vector.flatMap codec.toLeBytes

def keyOf (chat : Chat φ) : String := Redis.Kind.response.key codec.blake3 chat.model (blobOf codec chat)

def hashOf (chat : Chat φ) (payload : String) : Redis.Hash :=
  Redis.Kind.response.hash chat.model (blobOf codec chat) payload

-- The reply parser is the semantic cache's; a payload is the completion itself.
def reader (cache : RedisResponseCache φ) : L2.Cache φ String where
  breaker := Breaker.new 0 0
  threshold := cache.threshold
  lossy := codec.lossy
  parseF32 := codec.parseF32
  decodeResult := some

def lookup (cache : RedisResponseCache φ) (outcome : Option Value) : Option String :=
  match outcome.bind (parseKnnReply (reader codec cache)) with
  | some (distance,payload) =>
    if AtLeast (cosineScoreFromDistance distance) cache.threshold then some payload else none
  | none => none

-- What `main` makes of it.
def http : Answer → Nat × Option CacheStatus × String
  | .ok (code,status,json) => (code,some status,json)
  | .error e => (502,none,codec.errorJson e.text)

end Chat

-- RediSearch: how it reads tags, and the cosine distance it writes out.
structure Engine where
  rules : TagIndex.Rules Char
  distance : List UInt8 → List UInt8 → String

-- How one FT.SEARCH ends. Which of the candidates is nearest is the server's affair.
inductive Searched where
  | failed
  | empty
  | gone (key : String)
  | found (key : String)

def bulk (text : String) : Value := .bulkString (utf8 text)

def foundReply (key distance payload : String) : Value :=
  .array [.other "1",bulk key,.array [bulk "dist",bulk distance,bulk "payload",bulk payload]]

def searchReply (engine : Engine) (server : Redis.Server) (model : String) (blob : List UInt8) :
    Searched → Option (Option Value)
  | .failed => some none
  | .empty => some (some (.array [.other "0"]))
  | .gone key => some (some (.array [.other "1",bulk key,.other "nil"]))
  | .found key => (Redis.Kind.response.candidate engine.rules server model key).map fun hash =>
      some (foundReply key (engine.distance blob hash.vec) hash.payload)

inductive Place (φ : Type) where
  | idle
  | received (raw : String)
  | looking (ctx : ResponseCacheCtx φ) (chat : Chat φ)
  | asking (ctx : ResponseCacheCtx φ) (raw : String) (cached : Option (Chat φ))
  | connecting (ctx : ResponseCacheCtx φ) (chat : Chat φ) (body : String)
  | creating (ctx : ResponseCacheCtx φ) (chat : Chat φ) (body : String)
  | writing (ctx : ResponseCacheCtx φ) (chat : Chat φ) (body : String)
  | expiring (ctx : ResponseCacheCtx φ) (chat : Chat φ) (body : String)
  | answered (raw : String) (answer : Answer)

structure Forwarded (ι : Type) where
  proxy : ι
  url : String
  body : String
  response : Response

structure Reply (ι : Type) where
  proxy : ι
  raw : String
  answer : Answer

-- Many playgrounds over one Redis, each serving one request at a time. The
-- lists record the run and are never read.
structure State (ι φ : Type) where
  server : Redis.Server
  places : ι → Place φ
  requests : List (ι × String)
  forwarded : List (Forwarded ι)
  replies : List (Reply ι)

-- The last three are the classifiers' write-back and the clock of the server.
inductive Action (ι : Type) where
  | request (proxy : ι) (raw : String)
  | turn (proxy : ι)
  | search (proxy : ι) (searched : Searched)
  | upstream (proxy : ι) (response : Response)
  | store (proxy : ι) (exchange : Writeback.Exchange)
  | createSemantic
  | writeSemantic (tag : String) (blob : List UInt8) (payload : String)
  | lapse (key : String)

section Machine
variable {ι φ : Type} [DecidableEq ι] [Floating φ] (codec : Codec φ) (engine : Engine)
  (contexts : ι → Option (ResponseCacheCtx φ))

def start (ι φ : Type) : State ι φ := ⟨Redis.empty,fun _ => .idle,[],[],[]⟩

def goes (s : State ι φ) (i : ι) (place : Place φ) : State ι φ :=
  {s with places := Function.update s.places i place}

def planned (raw : String) : Plan φ → Place φ
  | .refuse error => .answered raw (.error error)
  | .cached ctx chat => .looking ctx chat
  | .forward ctx => .asking ctx raw none

def looked (ctx : ResponseCacheCtx φ) (chat : Chat φ) : Option String → Place φ
  | some hit => .answered chat.raw (.ok (200,.hit,hit))
  | none => .asking ctx chat.raw (some chat)

-- Only a 200 goes into the cache.
def forwarded (ctx : ResponseCacheCtx φ) (raw : String) (cached : Option (Chat φ)) :
    Except String (Nat × String) → Place φ
  | .error e => .answered raw (.error (.upstream e))
  | .ok (code,body) =>
    match cached with
    | none => .answered raw (.ok (code,.bypass,body))
    | some chat => if code = 200 then .connecting ctx chat body else .answered raw (.ok (code,.miss,body))

def stored (chat : Chat φ) (body : String) : Place φ := .answered chat.raw (.ok (200,.miss,body))

-- EXPIRE with nothing left to live deletes at once.
def expire (ttlSecs : Nat) (key : String) (server : Redis.Server) : Redis.Server :=
  if ttlSecs = 0 then Redis.lapse key server else server

def turn (s : State ι φ) (i : ι) : Option (State ι φ) :=
  match s.places i with
  | .received raw => some (goes s i (planned raw (plan codec (contexts i) raw)))
  | .answered raw answer => some (goes {s with replies := s.replies ++ [⟨i,raw,answer⟩]} i .idle)
  | _ => none

def store (s : State ι φ) (i : ι) (exchange : Writeback.Exchange) : Option (State ι φ) :=
  match s.places i with
  | .connecting ctx chat body =>
    some (goes s i (if exchange = .failed then stored chat body else .creating ctx chat body))
  | .creating ctx chat body =>
    let created := if exchange = .failed then s.server else Redis.ftCreate Redis.Kind.response.index s.server
    some (goes {s with server := created} i (.writing ctx chat body))
  | .writing ctx chat body =>
    let written := {s with server := Redis.hset (keyOf codec chat) (hashOf codec chat body) s.server}
    match exchange with
    | .answered => some (goes written i (.expiring ctx chat body))
    | .unanswered => some (goes written i (stored chat body))
    | .failed => some (goes s i (stored chat body))
  | .expiring ctx chat body =>
    let expired := if exchange = .failed then s.server else expire ctx.cache.ttlSecs (keyOf codec chat) s.server
    some (goes {s with server := expired} i (stored chat body))
  | _ => none

def advance (s : State ι φ) : Action ι → Option (State ι φ)
  | .request i raw =>
    match s.places i with
    | .idle => some (goes {s with requests := s.requests ++ [(i,raw)]} i (.received raw))
    | _ => none
  | .turn i => turn codec contexts s i
  | .search i searched =>
    match s.places i with
    | .looking ctx chat => (searchReply engine s.server chat.model (blobOf codec chat) searched).map
        fun outcome => goes s i (looked ctx chat (lookup codec ctx.cache outcome))
    | _ => none
  | .upstream i response =>
    match s.places i with
    | .asking ctx raw cached =>
      some (goes {s with forwarded := s.forwarded ++ [⟨i,upstreamUrl ctx.vllmUrl,raw,response⟩]} i
        (forwarded ctx raw cached (forwardUpstream response)))
    | _ => none
  | .store i exchange => store codec s i exchange
  | .createSemantic => some {s with server := Redis.ftCreate Redis.Kind.semantic.index s.server}
  | .writeSemantic tag blob payload =>
    let key := Redis.Kind.semantic.key codec.blake3 tag blob
    some {s with server := Redis.hset key (Redis.Kind.semantic.hash tag blob payload) s.server}
  | .lapse key => some {s with server := Redis.lapse key s.server}

def Step (s : State ι φ) (action : Action ι) (next : State ι φ) : Prop :=
  advance codec engine contexts s action = some next

def Place.storing : Place φ → Option (ResponseCacheCtx φ × Chat φ × String)
  | .connecting ctx chat body | .creating ctx chat body | .writing ctx chat body | .expiring ctx chat body =>
    some (ctx,chat,body)
  | .idle | .received _ | .looking _ _ | .asking _ _ _ | .answered _ _ => none

-- The steps a proxy may still take for its request.
def Place.left : Place φ → Nat
  | .received _ => 8
  | .looking _ _ => 7
  | .asking _ _ _ => 6
  | .connecting _ _ _ => 5
  | .creating _ _ _ => 4
  | .writing _ _ _ => 3
  | .expiring _ _ _ => 2
  | .answered _ _ => 1
  | .idle => 0

-- The proxy that is at work.
def Action.worker : Action ι → Option ι
  | .turn i | .search i _ | .upstream i _ | .store i _ => some i
  | .request _ _ | .createSemantic | .writeSemantic _ _ _ | .lapse _ => none

-- Everything a step can do. A server changes by what one party has just written,
-- and by what it forgets.
inductive Change (s : State ι φ) : Action ι → State ι φ → Prop where
  | requested {i : ι} {raw : String} : s.places i = .idle →
      Change s (.request i raw) (goes {s with requests := s.requests ++ [(i,raw)]} i (.received raw))
  | planned {i : ι} {raw : String} : s.places i = .received raw →
      Change s (.turn i) (goes s i (planned raw (plan codec (contexts i) raw)))
  | replied {i : ι} {raw : String} {answer : Answer} : s.places i = .answered raw answer →
      Change s (.turn i) (goes {s with replies := s.replies ++ [⟨i,raw,answer⟩]} i .idle)
  | looked {i : ι} {searched : Searched} {ctx : ResponseCacheCtx φ} {chat : Chat φ} {outcome : Option Value} :
      s.places i = .looking ctx chat →
      searchReply engine s.server chat.model (blobOf codec chat) searched = some outcome →
      Change s (.search i searched) (goes s i (looked ctx chat (lookup codec ctx.cache outcome)))
  | forwarded {i : ι} {response : Response} {ctx : ResponseCacheCtx φ} {raw : String} {cached : Option (Chat φ)} :
      s.places i = .asking ctx raw cached →
      Change s (.upstream i response)
        (goes {s with forwarded := s.forwarded ++ [⟨i,upstreamUrl ctx.vllmUrl,raw,response⟩]} i
          (forwarded ctx raw cached (forwardUpstream response)))
  | stored {i : ι} {exchange : Writeback.Exchange} {ctx : ResponseCacheCtx φ} {chat : Chat φ} {body : String}
      {server : Redis.Server} {after : Place φ} : (s.places i).storing = some (ctx,chat,body) →
      (after.storing = some (ctx,chat,body) ∨ after = stored chat body) → after.left < (s.places i).left →
      (∀ key hash, server.hashes key = some hash →
        s.server.hashes key = some hash ∨ hash = hashOf codec chat body) →
      Change s (.store i exchange) (goes {s with server := server} i after)
  | outside {action : Action ι} {server : Redis.Server} : action.worker = none →
      (∀ key hash, server.hashes key = some hash →
        s.server.hashes key = some hash ∨ hash.tagField = Redis.Kind.semantic.index.tagField) →
      Change s action {s with server := server}

variable {codec engine contexts}

omit [Floating φ] in
@[simp] theorem goes_self (s : State ι φ) (i : ι) (place : Place φ) : (goes s i place).places i = place :=
  Function.update_self ..

theorem hset_hashes {server : Redis.Server} {key other : String} {hash found : Redis.Hash}
    (here : (Redis.hset key hash server).hashes other = some found) :
    server.hashes other = some found ∨ found = hash := by
  change Function.update server.hashes key (some hash) other = some found at here
  by_cases same : other = key
  · subst same
    rw [Function.update_self] at here
    exact .inr (Option.some.inj here).symm
  · rw [Function.update_of_ne same] at here
    exact .inl here

theorem lapse_hashes {server : Redis.Server} {key other : String} {found : Redis.Hash}
    (here : (Redis.lapse key server).hashes other = some found) : server.hashes other = some found := by
  change Function.update server.hashes key none other = some found at here
  by_cases same : other = key
  · subst same
    rw [Function.update_self] at here
    cases here
  · rwa [Function.update_of_ne same] at here

theorem expire_hashes {server : Redis.Server} {ttlSecs : Nat} {key other : String} {found : Redis.Hash}
    (here : (expire ttlSecs key server).hashes other = some found) : server.hashes other = some found := by
  unfold expire at here
  split at here
  · exact lapse_hashes here
  · exact here

theorem store_change {s next : State ι φ} {i : ι} {exchange : Writeback.Exchange}
    (taken : store codec s i exchange = some next) : Change codec engine contexts s (.store i exchange) next := by
  have same {chat : Chat φ} {body : String} (key : String) (hash : Redis.Hash)
      (here : s.server.hashes key = some hash) :
      s.server.hashes key = some hash ∨ hash = hashOf codec chat body := .inl here
  unfold store at taken
  cases place : s.places i <;> simp only [place,reduceCtorEq] at taken
  case connecting ctx chat body =>
      cases Option.some.inj taken
      refine .stored (congrArg Place.storing place) ?_ ?_ same
      · split
        · exact .inr rfl
        · exact .inl rfl
      · rw [place]
        split <;> simp [stored,Place.left]
  case creating ctx chat body =>
      cases Option.some.inj taken
      refine .stored (congrArg Place.storing place) (.inl rfl) (by simp [place,Place.left])
        fun key hash here => .inl ?_
      split at here
      · exact here
      · rwa [Redis.ftCreate_hashes] at here
  case writing ctx chat body =>
      have writes (key : String) (hash : Redis.Hash)
          (here : (Redis.hset (keyOf codec chat) (hashOf codec chat body) s.server).hashes key = some hash) :=
        hset_hashes here
      cases exchange <;> cases Option.some.inj taken
      · exact .stored (congrArg Place.storing place) (.inl rfl) (by simp [place,Place.left]) writes
      · exact .stored (congrArg Place.storing place) (.inr rfl) (by simp [place,stored,Place.left]) writes
      · exact .stored (congrArg Place.storing place) (.inr rfl) (by simp [place,stored,Place.left]) same
  case expiring ctx chat body =>
      cases Option.some.inj taken
      refine .stored (congrArg Place.storing place) (.inr rfl) (by simp [place,stored,Place.left])
        fun key hash here => .inl ?_
      split at here
      · exact here
      · exact expire_hashes here

theorem step_change {s next : State ι φ} {action : Action ι} (step : Step codec engine contexts s action next) :
    Change codec engine contexts s action next := by
  unfold Step advance at step
  cases action with
  | request i raw =>
      cases place : s.places i <;> simp only [place,reduceCtorEq] at step
      cases Option.some.inj step
      exact .requested place
  | turn i =>
      unfold turn at step
      cases place : s.places i <;> simp only [place,reduceCtorEq] at step
      case received raw =>
          cases Option.some.inj step
          exact .planned place
      case answered raw answer =>
          cases Option.some.inj step
          exact .replied place
  | search i searched =>
      cases place : s.places i <;> simp only [place,reduceCtorEq] at step
      obtain ⟨outcome,heard,same⟩ := Option.map_eq_some_iff.mp step
      cases same
      exact .looked place heard
  | upstream i response =>
      cases place : s.places i <;> simp only [place,reduceCtorEq] at step
      cases Option.some.inj step
      exact .forwarded place
  | store i exchange => exact store_change step
  | createSemantic =>
      cases Option.some.inj step
      exact .outside rfl fun key hash here => .inl (by rwa [Redis.ftCreate_hashes] at here)
  | writeSemantic tag blob payload =>
      cases Option.some.inj step
      refine .outside rfl fun key hash here => ?_
      rcases hset_hashes here with old | new
      · exact .inl old
      · exact .inr (by rw [new]; rfl)
  | lapse key =>
      cases Option.some.inj step
      exact .outside rfl fun other hash here => .inl (lapse_hashes here)

end Machine

end SemanticClassifier.Playground
