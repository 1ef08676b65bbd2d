import SemanticClassifier.ChatProxyHits

namespace SemanticClassifier.Playground
open Floating Interleaving L2

-- The answers that come from the upstream.
def passes : Answer → Bool
  | .ok (_,.miss,_) | .ok (_,.bypass,_) | .error (.upstream _) => true
  | .ok (_,.hit,_) | .error .disabled | .error .notJson => false

section Books
variable {ι φ : Type}

-- The request a proxy is at.
def Place.raw : Place φ → Option String
  | .idle => none
  | .received raw | .asking _ raw _ | .answered raw _ => some raw
  | .looking _ chat | .connecting _ chat _ | .creating _ chat _ | .writing _ chat _ | .expiring _ chat _ =>
    some chat.raw

-- What a proxy has from the upstream and is to reply.
def Place.told : Place φ → Option (String × Answer)
  | .connecting _ chat body | .creating _ chat body | .writing _ chat body | .expiring _ chat body =>
    some (chat.raw,.ok (200,.miss,body))
  | .answered raw answer => if passes answer then some (raw,answer) else none
  | .idle | .received _ | .looking _ _ | .asking _ _ _ => none

variable [DecidableEq ι]

def requestsOf (s : State ι φ) (i : ι) : List String := (s.requests.filter (·.1 = i)).map Prod.snd

def repliesOf (s : State ι φ) (i : ι) : List (Reply ι) := s.replies.filter (·.proxy = i)

def callsOf (s : State ι φ) (i : ι) : List (Forwarded ι) := s.forwarded.filter (·.proxy = i)

def toldOf (s : State ι φ) (i : ι) : List (String × Answer) :=
  ((repliesOf s i).map fun reply => (reply.raw,reply.answer)).filter (passes ·.2) ++ (s.places i).told.toList

-- The upstream got the request as it was, and what it said shows in the answer.
def Passed (told : String × Answer) (call : Forwarded ι) : Prop :=
  call.body = told.1 ∧ Shown call.response told.2

-- Requests are answered one by one, in order; and so it is with what went to the
-- upstream, apart from what a proxy still has in hand.
structure Kept (s : State ι φ) (i : ι) : Prop where
  served : requestsOf s i = (repliesOf s i).map (·.raw) ++ (s.places i).raw.toList
  called : List.Forall₂ Passed (toldOf s i) (callsOf s i)

theorem Kept.same {s next : State ι φ} {i : ι} (kept : Kept s i) (requests : requestsOf next i = requestsOf s i)
    (replies : repliesOf next i = repliesOf s i) (calls : callsOf next i = callsOf s i)
    (raw : (next.places i).raw = (s.places i).raw)
    (told : (next.places i).told = (s.places i).told) : Kept next i where
  served := by rw [requests,replies,raw,kept.served]
  called := by
    rw [calls,toldOf,replies,told]
    exact kept.called

-- A step with what is in hand.
theorem Kept.onwards {s : State ι φ} {i : ι} {before after : Place φ} (kept : Kept s i)
    (place : s.places i = before) (raw : after.raw = before.raw) (told : after.told = before.told) :
    Kept (goes s i after) i := by
  refine kept.same rfl rfl rfl ?_ ?_
  · rw [goes_self,place,raw]
  · rw [goes_self,place,told]

variable [Floating φ] {codec : Codec φ} {engine : Engine} {contexts : ι → Option (ResponseCacheCtx φ)}

variable (codec contexts) in
omit [DecidableEq ι] [Floating φ] in
theorem planned_place (i : ι) (raw : String) : (planned raw (plan codec (contexts i) raw)).raw = some raw ∧
    (planned raw (plan codec (contexts i) raw)).told = none := by
  have right := plan_right codec (contexts i) raw
  cases plans : plan codec (contexts i) raw with
  | refuse error =>
      rw [plans] at right
      refine ⟨rfl,?_⟩
      rcases right with ⟨rfl,_⟩ | ⟨rfl,_⟩ <;> rfl
  | cached ctx chat =>
      rw [plans] at right
      exact ⟨congrArg some right.2.own,rfl⟩
  | forward ctx => exact ⟨rfl,rfl⟩

omit [Floating φ] in
theorem looked_place (ctx : ResponseCacheCtx φ) (chat : Chat φ) (hit : Option String) :
    (looked ctx chat hit).raw = some chat.raw ∧ (looked ctx chat hit).told = none := by
  cases hit <;> exact ⟨rfl,rfl⟩

omit [Floating φ] in
theorem forwarded_place (ctx : ResponseCacheCtx φ) {raw : String} {cached : Option (Chat φ)}
    (own : ∀ chat, cached = some chat → chat.raw = raw) (response : Response) :
    (forwarded ctx raw cached (forwardUpstream response)).raw = some raw ∧
      ∃ answer, (forwarded ctx raw cached (forwardUpstream response)).told = some (raw,answer) ∧
        Shown response answer := by
  have missed := forwardUpstream_shown .miss (by simp) response
  have bypassed := forwardUpstream_shown .bypass (by simp) response
  cases heard : forwardUpstream response with
  | error message =>
      rw [heard] at missed
      exact ⟨rfl,_,rfl,missed⟩
  | ok pair =>
      obtain ⟨code,body⟩ := pair
      rw [heard] at missed bypassed
      cases cached with
      | none => exact ⟨rfl,_,rfl,bypassed⟩
      | some chat =>
          have mine := own chat rfl
          subst mine
          by_cases success : code = 200
          · subst success
            exact ⟨rfl,_,rfl,missed⟩
          · rw [forwarded,if_neg success]
            exact ⟨rfl,_,rfl,missed⟩

omit [Floating φ] in
theorem storing_place {place : Place φ} {ctx : ResponseCacheCtx φ} {chat : Chat φ} {body : String}
    (storing : place.storing = some (ctx,chat,body)) :
    place.raw = some chat.raw ∧ place.told = some (chat.raw,.ok (200,.miss,body)) := by
  cases place <;> cases storing <;> exact ⟨rfl,rfl⟩

omit [DecidableEq ι] in
theorem asking_own {s : State ι φ} (valid : Valid codec engine contexts s) {i : ι} {ctx : ResponseCacheCtx φ}
    {raw : String} {cached : Option (Chat φ)} (place : s.places i = .asking ctx raw cached) :
    ∀ chat, cached = some chat → chat.raw = raw := by
  rintro chat rfl
  have sound := valid.sound i
  rw [place] at sound
  exact sound.2.own

-- A step of another proxy's leaves a proxy's books alone.
theorem change_other {s next : State ι φ} {action : Action ι} (change : Change codec engine contexts s action next)
    (i : ι) (others : action.worker ≠ some i) (asks : ∀ raw, action ≠ .request i raw) :
    next.places i = s.places i ∧ requestsOf next i = requestsOf s i ∧ repliesOf next i = repliesOf s i ∧
      callsOf next i = callsOf s i := by
  cases change with
  | @requested j raw place =>
      have other : i ≠ j := by
        rintro rfl
        exact asks raw rfl
      exact ⟨Function.update_of_ne other _ _,by simp [requestsOf,goes,Ne.symm other],rfl,rfl⟩
  | planned place | looked place _ | stored place _ _ _ =>
      have other : i ≠ _ := fun same => others (congrArg some same.symm)
      exact ⟨Function.update_of_ne other _ _,rfl,rfl,rfl⟩
  | replied place =>
      have other : i ≠ _ := fun same => others (congrArg some same.symm)
      exact ⟨Function.update_of_ne other _ _,rfl,by simp [repliesOf,goes,Ne.symm other],rfl⟩
  | forwarded place =>
      have other : i ≠ _ := fun same => others (congrArg some same.symm)
      exact ⟨Function.update_of_ne other _ _,rfl,rfl,by simp [callsOf,goes,Ne.symm other]⟩
  | outside _ _ => exact ⟨rfl,rfl,rfl,rfl⟩

theorem acts_own {action : Action ι} {i j : ι}
    (mine : ¬ (action.worker ≠ some i ∧ ∀ raw, action ≠ .request i raw))
    (works : action.worker = some j ∨ ∃ raw, action = .request j raw) : j = i := by
  by_contra other
  refine mine ⟨fun same => ?_,fun raw same => ?_⟩
  · rcases works with works | ⟨raw,rfl⟩
    · exact other (Option.some.inj (works.symm.trans same))
    · cases same
  · subst same
    rcases works with works | ⟨also,equal⟩
    · cases works
    · cases equal
      exact other rfl

theorem step_kept {s next : State ι φ} {action : Action ι} (valid : Valid codec engine contexts s) {i : ι}
    (kept : Kept s i) (change : Change codec engine contexts s action next) : Kept next i := by
  by_cases others : action.worker ≠ some i ∧ ∀ raw, action ≠ .request i raw
  · obtain ⟨place,requests,replies,calls⟩ := change_other change i others.1 others.2
    exact kept.same requests replies calls (congrArg _ place) (congrArg _ place)
  · obtain ⟨served,called⟩ := kept
    cases change with
    | @requested j raw place =>
        obtain rfl := acts_own others (.inr ⟨raw,rfl⟩)
        rw [place] at served
        rw [toldOf,place] at called
        refine ⟨?_,?_⟩
        · simpa [requestsOf,repliesOf,goes,Place.raw] using served
        · rw [toldOf,goes_self]
          exact called
    | @planned j raw place =>
        obtain rfl := acts_own others (.inl rfl)
        obtain ⟨raws,told⟩ := planned_place codec contexts j raw
        exact Kept.onwards ⟨served,called⟩ place raws told
    | @replied j raw answer place =>
        obtain rfl := acts_own others (.inl rfl)
        rw [place] at served
        rw [toldOf,place] at called
        have grown : repliesOf (goes {s with replies := s.replies ++ [⟨j,raw,answer⟩]} j .idle) j =
            repliesOf s j ++ [⟨j,raw,answer⟩] := by
          simp [repliesOf,goes]
        refine ⟨?_,?_⟩
        · rw [goes_self,grown]
          simpa [requestsOf,goes,Place.raw] using served
        · rw [toldOf,goes_self,grown,List.map_append,List.filter_append]
          cases passed : passes answer <;> simpa [callsOf,goes,Place.told,passed] using called
    | @looked j searched ctx chat outcome place heard =>
        obtain rfl := acts_own others (.inl rfl)
        obtain ⟨raws,told⟩ := looked_place ctx chat (lookup codec ctx.cache outcome)
        exact Kept.onwards ⟨served,called⟩ place raws told
    | @forwarded j response ctx raw cached place =>
        obtain rfl := acts_own others (.inl rfl)
        obtain ⟨raws,answer,told,shown⟩ := forwarded_place ctx (asking_own valid place) response
        rw [place] at served
        rw [toldOf,place] at called
        refine ⟨?_,?_⟩
        · rw [goes_self,raws]
          exact served
        · rw [toldOf,goes_self,told]
          have before : List.Forall₂ Passed
              (((repliesOf s j).map fun reply => (reply.raw,reply.answer)).filter (passes ·.2)) (callsOf s j) := by
            simpa [Place.told] using called
          have grown : callsOf (goes {s with forwarded := s.forwarded ++ [⟨j,upstreamUrl ctx.vllmUrl,raw,response⟩]}
              j (forwarded ctx raw cached (forwardUpstream response))) j =
                callsOf s j ++ [⟨j,upstreamUrl ctx.vllmUrl,raw,response⟩] := by
            simp [callsOf,goes]
          rw [grown]
          exact List.rel_append before (.cons ⟨rfl,shown⟩ .nil)
    | @stored j exchange ctx chat body server after storing target sooner written =>
        obtain rfl := acts_own others (.inl rfl)
        obtain ⟨raws,told⟩ := storing_place storing
        have hand : after.raw = some chat.raw ∧ after.told = some (chat.raw,.ok (200,.miss,body)) := by
          rcases target with stays | rfl
          · exact storing_place stays
          · exact ⟨rfl,rfl⟩
        have held : Kept {s with server := server} j := ⟨served,called⟩
        exact held.onwards rfl (hand.1.trans raws.symm) (hand.2.trans told.symm)
    | outside idle _ =>
        exact ⟨served,called⟩

-- A step of its own takes a proxy nearer to its reply.
theorem step_left {s next : State ι φ} {action : Action ι} (change : Change codec engine contexts s action next)
    (i : ι) : (next.places i).left + (if action.worker = some i then 1 else 0) + 8 * (requestsOf s i).length ≤
      (s.places i).left + 8 * (requestsOf next i).length := by
  by_cases others : action.worker ≠ some i ∧ ∀ raw, action ≠ .request i raw
  · obtain ⟨place,requests,_,_⟩ := change_other change i others.1 others.2
    rw [place,requests,if_neg others.1]
    omega
  · cases change with
    | @requested j raw place =>
        obtain rfl := acts_own others (.inr ⟨raw,rfl⟩)
        have grown : (requestsOf (goes {s with requests := s.requests ++ [(j,raw)]} j (.received raw)) j).length =
            (requestsOf s j).length + 1 := by
          simp [requestsOf,goes]
        rw [goes_self,grown,if_neg (by simp [Action.worker])]
        simp only [Place.left]
        omega
    | @planned j raw place =>
        obtain rfl := acts_own others (.inl rfl)
        have works : (Action.turn j).worker = some j := rfl
        have sooner : (planned raw (plan codec (contexts j) raw)).left ≤ 7 := by
          cases plan codec (contexts j) raw <;> simp [planned,Place.left]
        rw [goes_self,place,if_pos works]
        exact Nat.add_le_add_right (Nat.succ_le_succ sooner) _
    | @replied j raw answer place =>
        obtain rfl := acts_own others (.inl rfl)
        have works : (Action.turn j).worker = some j := rfl
        rw [goes_self,place,if_pos works]
        exact Nat.le_refl _
    | @looked j searched ctx chat outcome place heard =>
        obtain rfl := acts_own others (.inl rfl)
        have works : (Action.search j searched).worker = some j := rfl
        have sooner : (looked ctx chat (lookup codec ctx.cache outcome)).left ≤ 6 := by
          cases lookup codec ctx.cache outcome <;> simp [looked,Place.left]
        rw [goes_self,place,if_pos works]
        exact Nat.add_le_add_right (Nat.succ_le_succ sooner) _
    | @forwarded j response ctx raw cached place =>
        obtain rfl := acts_own others (.inl rfl)
        have works : (Action.upstream j response).worker = some j := rfl
        have sooner : (forwarded ctx raw cached (forwardUpstream response)).left ≤ 5 := by
          unfold forwarded
          split
          · simp [Place.left]
          · split
            · simp [Place.left]
            · split <;> simp [Place.left]
        rw [goes_self,place,if_pos works]
        exact Nat.add_le_add_right (Nat.succ_le_succ sooner) _
    | @stored j exchange ctx chat body server after storing target sooner written =>
        obtain rfl := acts_own others (.inl rfl)
        have works : (Action.store j exchange).worker = some j := rfl
        rw [goes_self,if_pos works]
        exact Nat.add_le_add_right (Nat.succ_le_of_lt sooner) _
    | outside idle _ =>
        rw [if_neg (by simp [idle])]
        exact Nat.le_refl _

-- Nobody has to wait for anybody else to get on.
theorem busy_enabled (s : State ι φ) {i : ι} (busy : s.places i ≠ .idle) :
    ∃ action next, action.worker = some i ∧ Step codec engine contexts s action next := by
  cases place : s.places i with
  | idle => exact absurd place busy
  | received raw => exact ⟨.turn i,_,rfl,by simp only [Step,advance,turn,place]; rfl⟩
  | answered raw answer => exact ⟨.turn i,_,rfl,by simp only [Step,advance,turn,place]; rfl⟩
  | looking ctx chat => exact ⟨.search i .failed,_,rfl,by simp only [Step,advance,place,searchReply]; rfl⟩
  | asking ctx raw cached => exact ⟨.upstream i (.transport ""),_,rfl,by simp only [Step,advance,place]; rfl⟩
  | connecting ctx chat body => exact ⟨.store i .failed,_,rfl,by simp only [Step,advance,store,place]; rfl⟩
  | creating ctx chat body => exact ⟨.store i .failed,_,rfl,by simp only [Step,advance,store,place]; rfl⟩
  | writing ctx chat body => exact ⟨.store i .failed,_,rfl,by simp only [Step,advance,store,place]; rfl⟩
  | expiring ctx chat body => exact ⟨.store i .failed,_,rfl,by simp only [Step,advance,store,place]; rfl⟩

def stepsOf (trace : List (State ι φ × Action ι)) (i : ι) : Nat := trace.countP fun row => row.2.worker = some i

theorem path_left {trace : List (State ι φ × Action ι)} {s after : State ι φ} (i : ι)
    (path : Path (Step codec engine contexts) s trace after) :
    stepsOf trace i + (after.places i).left + 8 * (requestsOf s i).length ≤
      (s.places i).left + 8 * (requestsOf after i).length := by
  induction path with
  | nil =>
      rw [stepsOf,List.countP_nil]
      omega
  | @snoc trace before action after prior step ih =>
      have here := step_left (step_change step) i
      rw [stepsOf,List.countP_append,List.countP_singleton]
      simp only [decide_eq_true_eq]
      unfold stepsOf at ih
      omega

-- The requests of a proxy grow by its own alone.
theorem path_requests {trace : List (State ι φ × Action ι)} {s after : State ι φ} {i : ι}
    (path : Path (Step codec engine contexts) s trace after)
    (unasked : ∀ row ∈ trace, ∀ raw, row.2 ≠ .request i raw) : requestsOf after i = requestsOf s i := by
  induction path with
  | nil => rfl
  | @snoc trace before action after prior step ih =>
      have earlier := ih fun row member => unasked row (List.mem_append_left _ member)
      have here := unasked (before,action) (List.mem_append_right _ (List.mem_singleton_self _))
      rw [← earlier]
      cases step_change step with
      | @requested j raw place =>
          have other : j ≠ i := by
            rintro rfl
            exact here raw rfl
          simp [requestsOf,goes,other]
      | planned | replied | looked | forwarded | stored | outside => rfl

omit [Floating φ] in
theorem left_le (place : Place φ) : place.left ≤ 8 := by
  cases place <;> simp [Place.left]

-- Every request is answered, in order and after at most eight steps of its proxy's
-- own, which are always open to it; the upstream is asked once for each that is neither served from the cache
-- nor refused, with its own body, and its own status and body are the answer.
theorem requests_served {trace : List (State ι φ × Action ι)} {s : State ι φ}
    (path : Path (Step codec engine contexts) (start ι φ) trace s) (i : ι) :
    requestsOf s i = (repliesOf s i).map (·.raw) ++ (s.places i).raw.toList ∧
    List.Forall₂ Passed (toldOf s i) (callsOf s i) ∧
    (s.places i ≠ .idle → ∃ action next, action.worker = some i ∧ Step codec engine contexts s action next) ∧
    (s.places i).left ≤ 8 ∧
    (∀ more after, Path (Step codec engine contexts) s more after →
      (∀ row ∈ more, ∀ raw, row.2 ≠ .request i raw) → stepsOf more i + (after.places i).left ≤ (s.places i).left) ∧
    stepsOf trace i + (s.places i).left ≤ 8 * (requestsOf s i).length := by
  have kept : Valid codec engine contexts s ∧ Kept s i := by
    apply path.preserves (motive := fun s => Valid codec engine contexts s ∧ Kept s i)
    · exact fun before action after holds step =>
        ⟨step_valid holds.1 step,step_kept holds.1 holds.2 (step_change step)⟩
    · exact ⟨⟨nofun,fun _ => trivial,nofun⟩,rfl,.nil⟩
  refine ⟨kept.2.served,kept.2.called,busy_enabled s,left_le _,fun more after onwards unasked => ?_,?_⟩
  · have spent := path_left i onwards
    rw [path_requests onwards unasked] at spent
    omega
  · simpa [start,requestsOf,Place.left] using path_left i path

end Books

-- The first request went to the upstream, the second never did.
theorem requests_served_two : requestsOf twoDone false = ["m"] ∧ callsOf twoDone false = [] ∧
    ∃ call, callsOf twoDone true = [call] ∧ call.body = "M" ∧ Shown call.response (.ok (200,.miss,"done")) := by
  obtain ⟨served,hit,_⟩ := requests_served two_path false
  obtain ⟨_,missed,_⟩ := requests_served two_path true
  refine ⟨served.trans rfl,List.forall₂_nil_left_iff.mp hit,?_⟩
  obtain ⟨call,rest,passed,none,one⟩ := List.forall₂_cons_left_iff.mp missed
  cases List.forall₂_nil_left_iff.mp none
  exact ⟨call,one,passed⟩

end SemanticClassifier.Playground
