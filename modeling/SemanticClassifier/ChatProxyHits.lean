import SemanticClassifier.ChatProxy

namespace SemanticClassifier.Playground
open Floating Interleaving L2

def UserTurn (message : Json) : Prop := (message.get "role").bind Json.asStr = some "user"

-- The text of the last message of the user's.
def UserWords (req : Json) (text : String) : Prop :=
  ∃ front message back, req.get "messages" = some (.array (front ++ message :: back)) ∧
    UserTurn message ∧ (∀ later ∈ back, ¬ UserTurn later) ∧ message.get "content" = some (.string text)

-- How an exchange with the upstream shows in an answer.
inductive Shown : Response → Answer → Prop where
  | whole {code : Nat} {status : CacheStatus} {text : String} : status ≠ .hit →
      Shown (.ok code (.ok text)) (.ok (code,status,text))
  | refused {code : Nat} {bad : 400 ≤ code} {status : CacheStatus} {text : String} : status ≠ .hit →
      Shown (.status code bad (.ok text)) (.ok (code,status,text))
  | unread {code : Nat} {bad : 400 ≤ code} {status : CacheStatus} {e : String} : status ≠ .hit →
      Shown (.status code bad (.error e)) (.ok (code,status,""))
  | broken {code : Nat} {e : String} :
      Shown (.ok code (.error e)) (.error (.upstream ("reading upstream body: " ++ e)))
  | failed {e : String} : Shown (.transport e) (.error (.upstream ("upstream request failed: " ++ e)))

section Facts
variable {ι φ : Type} [Floating φ] (codec : Codec φ) (engine : Engine)
  (contexts : ι → Option (ResponseCacheCtx φ))

-- A request that is not streamed and whose words can be embedded, and what it is
-- filed under.
structure Cacheable (ctx : ResponseCacheCtx φ) (raw : String) (chat : Chat φ) : Prop where
  own : chat.raw = raw
  request : ∃ req, codec.fromStr raw = some req ∧ (req.get "stream").bind Json.asBool ≠ some true ∧
    UserWords req chat.text ∧ chat.model = ((req.get "model").bind Json.asStr).getD ""
  embedded : ctx.embed chat.text = .ok chat.vector

-- A request that was filed as this chat, and the upstream's own 200 for it.
def Sourced (calls : List (Forwarded ι)) (chat : Chat φ) (body : String) : Prop :=
  ∃ call ∈ calls, call.response = .ok 200 (.ok body) ∧ ∃ ctx, contexts call.proxy = some ctx ∧
    Cacheable codec ctx call.body chat

def Filed (calls : List (Forwarded ι)) (hash : Redis.Hash) : Prop :=
  hash.tagField = Redis.Kind.response.index.tagField →
    ∃ chat, Sourced codec contexts calls chat hash.payload ∧ hash = hashOf codec chat hash.payload

-- Near enough for one completion to do for both.
structure Near (ctx : ResponseCacheCtx φ) (chat other : Chat φ) : Prop where
  model : engine.rules.Matches chat.model.toList other.model.toList
  close : ∃ d, codec.parseF32 (engine.distance (chat.vector.flatMap codec.toLeBytes)
    (other.vector.flatMap codec.toLeBytes)) = some d ∧ AtLeast (sub (ofNat 1) d) ctx.cache.threshold

def Hit (calls : List (Forwarded ι)) (i : ι) (raw body : String) : Prop :=
  ∃ ctx chat other, contexts i = some ctx ∧ Cacheable codec ctx raw chat ∧
    Near codec engine ctx chat other ∧ Sourced codec contexts calls other body

-- The proxy sent the request on, and this is what came of it.
def Asked (calls : List (Forwarded ι)) (i : ι) (raw : String) (answer : Answer) : Prop :=
  ∃ call ∈ calls, call.proxy = i ∧ call.body = raw ∧ Shown call.response answer

-- What an answer rests on.
inductive Grounded (calls : List (Forwarded ι)) (i : ι) (raw : String) : Answer → Prop where
  | disabled : contexts i = none → Grounded calls i raw (.error .disabled)
  | notJson {ctx : ResponseCacheCtx φ} : contexts i = some ctx → codec.fromStr raw = none →
      Grounded calls i raw (.error .notJson)
  | failed {message : String} : Asked calls i raw (.error (.upstream message)) →
      Grounded calls i raw (.error (.upstream message))
  | hit {body : String} : Hit codec engine contexts calls i raw body → Grounded calls i raw (.ok (200,.hit,body))
  | missed {code : Nat} {body : String} {ctx : ResponseCacheCtx φ} {chat : Chat φ} :
      contexts i = some ctx → Cacheable codec ctx raw chat → Asked calls i raw (.ok (code,.miss,body)) →
      Grounded calls i raw (.ok (code,.miss,body))
  | bypassed {code : Nat} {body : String} {ctx : ResponseCacheCtx φ} : contexts i = some ctx →
      (codec.fromStr raw).isSome → (∀ chat, ¬ Cacheable codec ctx raw chat) →
      Asked calls i raw (.ok (code,.bypass,body)) → Grounded calls i raw (.ok (code,.bypass,body))

-- What `handle_chat` finds out about a request.
def Plan.Right (ctx : Option (ResponseCacheCtx φ)) (raw : String) : Plan φ → Prop
  | .refuse error => error = .disabled ∧ ctx = none ∨
    error = .notJson ∧ (∃ here, ctx = some here) ∧ codec.fromStr raw = none
  | .cached here chat => ctx = some here ∧ Cacheable codec here raw chat
  | .forward here => ctx = some here ∧ (codec.fromStr raw).isSome ∧ ∀ chat, ¬ Cacheable codec here raw chat

theorem lastUserMessage_iff {req : Json} {text : String} :
    lastUserMessage req = some text ↔ UserWords req text := by
  have later {back : List Json} (none : ∀ message ∈ back,
      (!decide ((message.get "role").bind Json.asStr = some "user")) = true) :
      ∀ message ∈ back, ¬ UserTurn message := by
    simpa [UserTurn] using none
  constructor
  · intro found
    obtain ⟨messages,here,found⟩ := Option.bind_eq_some_iff.mp found
    obtain ⟨items,array,found⟩ := Option.bind_eq_some_iff.mp found
    obtain ⟨message,last,found⟩ := Option.bind_eq_some_iff.mp found
    obtain ⟨content,said,string⟩ := Option.bind_eq_some_iff.mp found
    obtain ⟨user,back,front,split,others⟩ := List.find?_eq_some_iff_append.mp last
    have order : items = front.reverse ++ message :: back.reverse := by
      rw [← List.reverse_reverse items,split]
      simp
    cases messages <;> cases array
    cases content <;> cases string
    subst order
    have turn : UserTurn message := by simpa [UserTurn] using user
    exact ⟨front.reverse,message,back.reverse,here,turn,
      fun other among => later others other (List.mem_reverse.mp among),said⟩
  · rintro ⟨front,message,back,here,user,others,said⟩
    have last : (front ++ message :: back).reverse.find?
        (fun m => (m.get "role").bind Json.asStr = some "user") = some message := by
      refine List.find?_eq_some_iff_append.mpr ⟨?_,back.reverse,front.reverse,by simp,?_⟩
      · simpa [UserTurn] using user
      intro other among
      simpa [UserTurn] using others other (List.mem_reverse.mp among)
    rw [lastUserMessage,here,Option.bind_eq_bind,Option.bind_some,Json.asArray,Option.bind_eq_bind,
      Option.bind_some,last,Option.bind_some,said]
    rfl

-- What keeps a request from being filed.
omit [Floating φ] in
theorem not_cacheable {ctx : ResponseCacheCtx φ} {raw : String} {req : Json} (read : codec.fromStr raw = some req)
    (unfit : (req.get "stream").bind Json.asBool = some true ∨ lastUserMessage req = none ∨
      ∃ text e, lastUserMessage req = some text ∧ ctx.embed text = .error e) (chat : Chat φ) :
    ¬ Cacheable codec ctx raw chat := by
  rintro ⟨_,⟨other,again,whole,words,_⟩,embedded⟩
  cases read.symm.trans again
  have last := lastUserMessage_iff.mpr words
  rcases unfit with streamed | silent | ⟨text,e,said,refused⟩
  · exact whole streamed
  · cases silent.symm.trans last
  · cases said.symm.trans last
    cases refused.symm.trans embedded

omit [Floating φ] in
theorem plan_right (ctx : Option (ResponseCacheCtx φ)) (raw : String) :
    (plan codec ctx raw).Right codec ctx raw := by
  cases ctx with
  | none => exact .inl ⟨rfl,rfl⟩
  | some ctx =>
      cases read : codec.fromStr raw with
      | none =>
          rw [plan,read]
          exact .inr ⟨rfl,⟨ctx,rfl⟩,read⟩
      | some req =>
          have parsed : (codec.fromStr raw).isSome = true := by rw [read]; rfl
          by_cases streamed : (req.get "stream").bind Json.asBool = some true
          · rw [show plan codec (some ctx) raw = .forward ctx by simp [plan,read,streamed]]
            exact ⟨rfl,parsed,not_cacheable codec read (.inl streamed)⟩
          · have whole : ((req.get "stream").bind Json.asBool).getD false = false := by
              cases value : (req.get "stream").bind Json.asBool with
              | none => rfl
              | some streams => exact Bool.eq_false_iff.mpr fun same => streamed (value.trans (congrArg some same))
            cases last : lastUserMessage req with
            | none =>
                rw [show plan codec (some ctx) raw = .forward ctx by simp [plan,read,whole,last]]
                exact ⟨rfl,parsed,not_cacheable codec read (.inr (.inl last))⟩
            | some text =>
                cases embedded : ctx.embed text with
                | error e =>
                    rw [show plan codec (some ctx) raw = .forward ctx by simp [plan,read,whole,last,embedded]]
                    exact ⟨rfl,parsed,not_cacheable codec read (.inr (.inr ⟨text,e,last,embedded⟩))⟩
                | ok vector =>
                    rw [show plan codec (some ctx) raw = .cached ctx
                      ⟨raw,text,((req.get "model").bind Json.asStr).getD "",vector⟩ by
                        simp [plan,read,whole,last,embedded]]
                    exact ⟨rfl,rfl,⟨req,read,streamed,lastUserMessage_iff.mp last,rfl⟩,embedded⟩

def Place.Sound (calls : List (Forwarded ι)) (i : ι) : Place φ → Prop
  | .idle | .received _ => True
  | .looking ctx chat => contexts i = some ctx ∧ Cacheable codec ctx chat.raw chat
  | .asking ctx raw none => contexts i = some ctx ∧ (codec.fromStr raw).isSome ∧
    ∀ chat, ¬ Cacheable codec ctx raw chat
  | .asking ctx raw (some chat) => contexts i = some ctx ∧ Cacheable codec ctx raw chat
  | .connecting ctx chat body | .creating ctx chat body | .writing ctx chat body | .expiring ctx chat body =>
    (contexts i = some ctx ∧ Cacheable codec ctx chat.raw chat) ∧
      Asked calls i chat.raw (.ok (200,.miss,body)) ∧ Sourced codec contexts calls chat body
  | .answered raw answer => Grounded codec engine contexts calls i raw answer

structure Valid (s : State ι φ) : Prop where
  filed : ∀ key hash, s.server.hashes key = some hash → Filed codec contexts s.forwarded hash
  sound : ∀ i, (s.places i).Sound codec engine contexts s.forwarded i
  replies : ∀ reply ∈ s.replies, Grounded codec engine contexts s.forwarded reply.proxy reply.raw reply.answer

variable {codec engine contexts}

omit [Floating φ] in
theorem Sourced.later {calls more : List (Forwarded ι)} {chat : Chat φ} {body : String}
    (sourced : Sourced codec contexts calls chat body) (grown : calls ⊆ more) :
    Sourced codec contexts more chat body := by
  obtain ⟨call,member,rest⟩ := sourced
  exact ⟨call,grown member,rest⟩

omit [Floating φ] in
theorem Filed.later {calls more : List (Forwarded ι)} {hash : Redis.Hash}
    (filed : Filed codec contexts calls hash) (grown : calls ⊆ more) : Filed codec contexts more hash := by
  intro field
  obtain ⟨chat,sourced,same⟩ := filed field
  exact ⟨chat,sourced.later grown,same⟩

theorem Asked.later {calls more : List (Forwarded ι)} {i : ι} {raw : String} {answer : Answer}
    (asked : Asked calls i raw answer) (grown : calls ⊆ more) : Asked more i raw answer := by
  obtain ⟨call,member,rest⟩ := asked
  exact ⟨call,grown member,rest⟩

theorem Grounded.later {calls more : List (Forwarded ι)} {i : ι} {raw : String} {answer : Answer}
    (grounded : Grounded codec engine contexts calls i raw answer) (grown : calls ⊆ more) :
    Grounded codec engine contexts more i raw answer := by
  cases grounded with
  | disabled none => exact .disabled none
  | notJson here unread => exact .notJson here unread
  | failed asked => exact .failed (asked.later grown)
  | hit served =>
      obtain ⟨ctx,chat,other,here,filed,near,sourced⟩ := served
      exact .hit ⟨ctx,chat,other,here,filed,near,sourced.later grown⟩
  | missed here filed asked => exact .missed here filed (asked.later grown)
  | bypassed here read unfiled asked => exact .bypassed here read unfiled (asked.later grown)

theorem Place.Sound.later {calls more : List (Forwarded ι)} {i : ι} {place : Place φ}
    (sound : place.Sound codec engine contexts calls i) (grown : calls ⊆ more) :
    place.Sound codec engine contexts more i := by
  cases place with
  | idle | received | looking => exact sound
  | asking ctx raw cached => cases cached <;> exact sound
  | connecting | creating | writing | expiring =>
      exact ⟨sound.1,sound.2.1.later grown,sound.2.2.later grown⟩
  | answered => exact Grounded.later sound grown

theorem Place.Sound.sourced {calls : List (Forwarded ι)} {i : ι} {place : Place φ} {ctx : ResponseCacheCtx φ}
    {chat : Chat φ} {body : String} (sound : place.Sound codec engine contexts calls i)
    (storing : place.storing = some (ctx,chat,body)) :
    (contexts i = some ctx ∧ Cacheable codec ctx chat.raw chat) ∧
      Asked calls i chat.raw (.ok (200,.miss,body)) ∧ Sourced codec contexts calls chat body := by
  cases place <;> cases storing <;> exact sound

omit [Floating φ] in
theorem parse_found (cache : RedisResponseCache φ) (key distance payload : String) :
    parseKnnReply (reader codec cache) (foundReply key distance payload) =
      (codec.parseF32 distance).map fun d => (d,payload) := by
  have text (value : String) : asString (reader codec cache) (bulk value) = some value :=
    congrArg some (codec.lossy_utf8 value)
  have number : (reader codec cache).parseF32 = codec.parseF32 := rfl
  have read : readFields (reader codec cache) [bulk "dist",bulk distance,bulk "payload",bulk payload] (none,none) =
      (codec.parseF32 distance,some payload) := by
    simp [readFields,text,number]
  rw [foundReply,parseKnnReply]
  simp only [List.getElem?_cons_succ,List.getElem?_cons_zero,read]
  cases codec.parseF32 distance <;> rfl

-- A completion that a search brings up stands in the server, near enough.
theorem lookup_found {server : Redis.Server} {model : String} {blob : List UInt8} {searched : Searched}
    {outcome : Option Value} {cache : RedisResponseCache φ} {body : String}
    (heard : searchReply engine server model blob searched = some outcome)
    (served : lookup codec cache outcome = some body) :
    ∃ key hash d, server.hashes key = some hash ∧ hash.tagField = Redis.Kind.response.index.tagField ∧
      engine.rules.Matches model.toList hash.tag.toList ∧ hash.payload = body ∧
      codec.parseF32 (engine.distance blob hash.vec) = some d ∧
      AtLeast (cosineScoreFromDistance d) cache.threshold := by
  cases searched with
  | failed =>
      cases Option.some.inj heard
      cases served
  | empty =>
      cases Option.some.inj heard
      cases served
  | gone key =>
      cases Option.some.inj heard
      cases served
  | found key =>
      obtain ⟨hash,seen,same⟩ := Option.map_eq_some_iff.mp heard
      cases same
      obtain ⟨stored,field,alike⟩ := Redis.candidate_parts seen
      rw [lookup,Option.bind_some,parse_found] at served
      cases number : codec.parseF32 (engine.distance blob hash.vec) with
      | none => simp [number] at served
      | some d =>
          simp only [number,Option.map_some] at served
          split at served
          · rename_i above
            exact ⟨key,hash,d,stored,field,alike,Option.some.inj served,number,above⟩
          · cases served

variable [DecidableEq ι]

theorem Valid.moves {s next : State ι φ} {i : ι} {place : Place φ} (valid : Valid codec engine contexts s)
    (places : next.places = Function.update s.places i place) (grown : s.forwarded ⊆ next.forwarded)
    (filed : ∀ key hash, next.server.hashes key = some hash →
      s.server.hashes key = some hash ∨ Filed codec contexts next.forwarded hash)
    (here : place.Sound codec engine contexts next.forwarded i)
    (replies : ∀ reply ∈ next.replies, reply ∈ s.replies ∨
      Grounded codec engine contexts next.forwarded reply.proxy reply.raw reply.answer) :
    Valid codec engine contexts next where
  filed key hash stored := by
    rcases filed key hash stored with old | new
    · exact (valid.filed key hash old).later grown
    · exact new
  sound := by
    rw [places]
    exact (Function.forall_update_iff s.places (p := fun j place =>
      place.Sound codec engine contexts next.forwarded j)).mpr ⟨here,fun j _ => (valid.sound j).later grown⟩
  replies reply member := by
    rcases replies reply member with old | new
    · exact (valid.replies reply old).later grown
    · exact new

omit [DecidableEq ι] in
theorem planned_sound (calls : List (Forwarded ι)) (i : ι) (raw : String) :
    (planned raw (plan codec (contexts i) raw)).Sound codec engine contexts calls i := by
  have right := plan_right codec (contexts i) raw
  cases plans : plan codec (contexts i) raw with
  | refuse error =>
      rw [plans] at right
      rcases right with ⟨rfl,none⟩ | ⟨rfl,⟨ctx,here⟩,unread⟩
      · exact .disabled none
      · exact .notJson here unread
  | cached ctx chat =>
      rw [plans] at right
      exact ⟨right.1,right.2.own.symm ▸ right.2⟩
  | forward ctx =>
      rw [plans] at right
      exact right

omit [DecidableEq ι] in
theorem looked_sound {s : State ι φ} (valid : Valid codec engine contexts s) {i : ι} {ctx : ResponseCacheCtx φ}
    {chat : Chat φ} {searched : Searched} {outcome : Option Value} (place : s.places i = .looking ctx chat)
    (heard : searchReply engine s.server chat.model (blobOf codec chat) searched = some outcome) :
    (looked ctx chat (lookup codec ctx.cache outcome)).Sound codec engine contexts s.forwarded i := by
  have filed : contexts i = some ctx ∧ Cacheable codec ctx chat.raw chat := by
    have sound := valid.sound i
    rwa [place] at sound
  cases served : lookup codec ctx.cache outcome with
  | none => exact filed
  | some body =>
      obtain ⟨key,hash,d,stored,field,alike,rfl,number,above⟩ := lookup_found heard served
      obtain ⟨other,sourced,same⟩ := valid.filed key hash stored field
      refine .hit ⟨ctx,chat,other,filed.1,filed.2,⟨?_,d,?_,above⟩,sourced⟩
      · rw [same] at alike
        exact alike
      · rw [same] at number
        exact number

-- What the upstream says is passed on as it is.
theorem forwardUpstream_shown (status : CacheStatus) (passed : status ≠ .hit) (response : Response) :
    Shown response (match forwardUpstream response with
      | .ok (code,body) => .ok (code,status,body)
      | .error message => .error (.upstream message)) := by
  cases response with
  | ok code body =>
      cases body with
      | ok text => exact .whole passed
      | error e => exact .broken
  | status code bad body =>
      cases body with
      | ok text => exact .refused passed
      | error e => exact .unread passed
  | transport e => exact .failed

-- A success the upstream reports is its own 200.
theorem forwardUpstream_success {response : Response} {body : String}
    (success : forwardUpstream response = .ok (200,body)) : response = .ok 200 (.ok body) := by
  cases response with
  | ok code text =>
      cases text with
      | ok text =>
          cases success
          rfl
      | error e => cases success
  | status code bad text =>
      cases text <;> simp only [forwardUpstream,Except.ok.injEq,Prod.mk.injEq] at success <;> omega
  | transport e => cases success

omit [DecidableEq ι] in
theorem forwarded_sound {s : State ι φ} (valid : Valid codec engine contexts s) {i : ι} {ctx : ResponseCacheCtx φ}
    {raw : String} {cached : Option (Chat φ)} {response : Response} {calls : List (Forwarded ι)}
    (place : s.places i = .asking ctx raw cached) (called : ∃ url, ⟨i,url,raw,response⟩ ∈ calls) :
    (forwarded ctx raw cached (forwardUpstream response)).Sound codec engine contexts calls i := by
  obtain ⟨url,member⟩ := called
  have sound := valid.sound i
  rw [place] at sound
  have asked {answer : Answer} (shown : Shown response answer) : Asked calls i raw answer :=
    ⟨_,member,rfl,rfl,shown⟩
  have missed := forwardUpstream_shown .miss (by simp) response
  have bypassed := forwardUpstream_shown .bypass (by simp) response
  cases answer : forwardUpstream response with
  | error message =>
      rw [answer] at missed
      exact .failed (asked missed)
  | ok pair =>
      obtain ⟨code,body⟩ := pair
      rw [answer] at missed bypassed
      cases cached with
      | none => exact .bypassed sound.1 sound.2.1 sound.2.2 (asked bypassed)
      | some chat =>
          obtain ⟨here,filed⟩ := sound
          change (if code = 200 then _ else _ : Place φ).Sound codec engine contexts calls i
          split
          · rename_i success
            subst success
            have own := filed.own
            subst own
            exact ⟨⟨here,filed⟩,asked missed,_,member,forwardUpstream_success answer,ctx,here,filed⟩
          · exact .missed here filed (asked missed)

theorem step_valid {s next : State ι φ} {action : Action ι} (valid : Valid codec engine contexts s)
    (step : Step codec engine contexts s action next) : Valid codec engine contexts next := by
  have same {calls : List (Forwarded ι)} (key : String) (hash : Redis.Hash)
      (stored : s.server.hashes key = some hash) :
      s.server.hashes key = some hash ∨ Filed codec contexts calls hash := .inl stored
  cases step_change step with
  | requested place => exact valid.moves rfl (List.Subset.refl _) same trivial fun _ old => .inl old
  | planned place =>
      exact valid.moves rfl (List.Subset.refl _) same (planned_sound _ _ _) fun _ old => .inl old
  | @replied i raw answer place =>
      refine valid.moves rfl (List.Subset.refl _) same trivial fun reply member => ?_
      rcases List.mem_append.mp member with old | new
      · exact .inl old
      · cases List.mem_singleton.mp new
        have grounded := valid.sound i
        rw [place] at grounded
        exact .inr grounded
  | looked place heard =>
      exact valid.moves rfl (List.Subset.refl _) same (looked_sound valid place heard) fun _ old => .inl old
  | forwarded place =>
      refine valid.moves rfl (List.subset_append_left _ _) same ?_ fun _ old => .inl old
      exact forwarded_sound valid place ⟨_,List.mem_append_right _ (List.mem_singleton_self _)⟩
  | @stored i exchange ctx chat body server after storing target _ written =>
      obtain ⟨filed,asked,sourced⟩ := (valid.sound i).sourced storing
      refine valid.moves rfl (List.Subset.refl _) (fun key hash here => ?_) ?_ fun _ old => .inl old
      · rcases written key hash here with old | rfl
        · exact .inl old
        · exact .inr fun _ => ⟨chat,sourced,rfl⟩
      · rcases target with stays | rfl
        · cases after <;> cases stays <;> exact ⟨filed,asked,sourced⟩
        · exact .missed filed.1 filed.2 asked
  | outside _ written =>
      refine ⟨fun key hash here => ?_,valid.sound,valid.replies⟩
      rcases written key hash here with old | other
      · exact valid.filed key hash old
      · exact fun field => absurd (other.symm.trans field) (by decide)

theorem path_valid {trace : List (State ι φ × Action ι)} {s : State ι φ}
    (path : Path (Step codec engine contexts) (start ι φ) trace s) : Valid codec engine contexts s := by
  apply path.preserves
  · exact fun before action after valid step => step_valid valid step
  · exact ⟨nofun,fun _ => trivial,nofun⟩

-- Every reply has its grounds, and a completion is served from the cache only
-- where an earlier 200 for the same model and a prompt near enough left it.
theorem replies_grounded {trace : List (State ι φ × Action ι)} {s : State ι φ}
    (path : Path (Step codec engine contexts) (start ι φ) trace s) :
    (∀ reply ∈ s.replies, Grounded codec engine contexts s.forwarded reply.proxy reply.raw reply.answer) ∧
    (∀ reply ∈ s.replies, ∀ code body, http codec reply.answer = (code,some .hit,body) →
      code = 200 ∧ Hit codec engine contexts s.forwarded reply.proxy reply.raw body) ∧
    ∀ model key hash, Redis.Kind.response.candidate engine.rules s.server model key = some hash →
      ∃ chat, Sourced codec contexts s.forwarded chat hash.payload ∧
        hash.vec = chat.vector.flatMap codec.toLeBytes ∧
        engine.rules.Matches model.toList chat.model.toList := by
  have valid := path_valid path
  refine ⟨valid.replies,fun reply member code body shown => ?_,fun model key hash seen => ?_⟩
  · have grounded := valid.replies reply member
    cases answer : reply.answer with
    | error e => simp [answer,http] at shown
    | ok parts =>
        obtain ⟨number,status,json⟩ := parts
        simp only [answer,http,Prod.mk.injEq,Option.some.injEq] at shown
        obtain ⟨rfl,rfl,rfl⟩ := shown
        rw [answer] at grounded
        cases grounded with
        | hit served => exact ⟨rfl,served⟩
  · obtain ⟨stored,field,alike⟩ := Redis.candidate_parts seen
    obtain ⟨chat,sourced,same⟩ := valid.filed key hash stored field
    refine ⟨chat,sourced,congrArg Redis.Hash.vec same,?_⟩
    rw [same] at alike
    exact alike

end Facts

-- One playground files a completion, and another one serves it.
def twoCodec : Codec (Ieee ℚ) where
  fromStr raw := if raw = "" then none else some (.object [("model",.string raw),("messages",.array
    [.object [("role",.string "user"),("content",.string "hello")]])])
  errorJson := id
  toLeBytes _ := []
  blake3 _ := Vector.replicate 32 0
  lossy bytes := (String.fromUTF8? ⟨bytes.toArray⟩).getD ""
  parseF32 text := if text = "0.05" then some (.finite (1/20)) else none
  lossy_utf8 text := by rw [fromUTF8_utf8,Option.getD_some]

def twoEngine : Engine := ⟨Redis.asciiRules,fun _ _ => "0.05"⟩

def twoContexts : Bool → Option (ResponseCacheCtx (Ieee ℚ)) :=
  fun _ => some ⟨fun _ => .ok [],⟨.finite (9/10),60⟩,"http://vllm"⟩

def twoActions : List (Action Bool) :=
  [.request true "M",.turn true,.search true .empty,.upstream true (.ok 200 (.ok "done")),.store true .answered,
    .store true .answered,.store true .answered,.store true .answered,.turn true,.request false "m",.turn false]

def twoRun : List (State Bool (Ieee ℚ) × Action Bool) × State Bool (Ieee ℚ) :=
  (follow (advance twoCodec twoEngine twoContexts) (start Bool (Ieee ℚ)) twoActions).getD ([],start Bool (Ieee ℚ))

theorem two_filed : Path (Step twoCodec twoEngine twoContexts) (start Bool (Ieee ℚ)) twoRun.1 twoRun.2 :=
  follow_path (show follow (advance twoCodec twoEngine twoContexts) (start Bool (Ieee ℚ)) twoActions =
    some twoRun from rfl)

def twoKey : String := keyOf twoCodec ⟨"M","hello","M",[]⟩

theorem two_candidate : Redis.Kind.response.candidate twoEngine.rules twoRun.2.server "m" twoKey =
    some ⟨"model","M","done",[]⟩ := by decide

def twoServed : State Bool (Ieee ℚ) := goes twoRun.2 false (.answered "m" (.ok (200,.hit,"done")))

theorem two_looked : Step twoCodec twoEngine twoContexts twoRun.2 (.search false (.found twoKey)) twoServed := by
  have reply : searchReply twoEngine twoRun.2.server "m" [] (.found twoKey) =
      some (some (foundReply twoKey "0.05" "done")) := by
    rw [searchReply,two_candidate]
    rfl
  have above : AtLeast (cosineScoreFromDistance (.finite (1/20) : Ieee ℚ)) (.finite (9/10)) := by decide +kernel
  have hit : lookup twoCodec ⟨.finite (9/10),60⟩ (some (foundReply twoKey "0.05" "done")) = some "done" := by
    rw [lookup,Option.bind_some,parse_found]
    exact if_pos above
  have place : twoRun.2.places false = .looking ⟨fun _ => .ok [],⟨.finite (9/10),60⟩,"http://vllm"⟩
      ⟨"m","hello","m",[]⟩ := rfl
  have blob : blobOf twoCodec ⟨"m","hello","m",[]⟩ = [] := rfl
  simp only [Step,advance,place,blob,reply,Option.map_some,hit]
  rfl

def twoDone : State Bool (Ieee ℚ) :=
  goes {twoServed with replies := twoServed.replies ++ [⟨false,"m",.ok (200,.hit,"done")⟩]} false .idle

theorem two_path : Path (Step twoCodec twoEngine twoContexts) (start Bool (Ieee ℚ))
    (twoRun.1 ++ [(twoRun.2,.search false (.found twoKey))] ++ [(twoServed,.turn false)]) twoDone :=
  (two_filed.snoc two_looked).snoc rfl

theorem replies_grounded_two :
    Hit twoCodec twoEngine twoContexts twoDone.forwarded false "m" "done" := by
  obtain ⟨_,hits,_⟩ := replies_grounded two_path
  exact (hits ⟨false,"m",.ok (200,.hit,"done")⟩ (by simp [twoDone,goes]) 200 "done" rfl).2

end SemanticClassifier.Playground
