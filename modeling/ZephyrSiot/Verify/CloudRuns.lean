import ZephyrSiot.CloudMain
import ZephyrSiot.Verify.CloudPublish

/-!
# Runs of the cellular node

The programs of the main thread stay correct while the timer and the shell give `thread_sem` in
between (`CloudNode.Safe`), so what they are correct for holds in every run.
-/

namespace ZephyrSiot
open CStr Calls CloudCall CloudWorld

variable {cfg : CloudConfig} {caChain : Nat → Option Bytes} {k : Nat} {w : CloudWorld}
  {n n' : CloudNode} {e : CloudEvent} {es : List CloudEvent}

theorem after_give (w : CloudWorld) {β : Type} (c : CloudCall β) (r : β) :
    w.give.after c r = (w.after c r).give := by
  cases c with
  | modemKeyMgmtDelete | modemKeyMgmtWrite | getaddrinfo | socket | setsockopt | connect
  | nrfModemLibInit | lteLcConnect =>
    simp only [after]
    split <;> rfl
  | modemKeyMgmtCmp tag cred =>
    simp only [after, show w.give.caChain = w.caChain from rfl]
    split <;> rfl
  | cjsonCreateObject | cjsonPrintUnformatted => cases r <;> rfl
  | cjsonAddBoolToObject obj => cases obj <;> cases r <;> rfl
  | cjsonDelete obj => cases obj <;> rfl
  | _ => rfl

theorem give_unseen : (cloudProtocol cfg).Unseen give where
  allowed _ c h := by cases c <;> exact h
  possible _ c _ h := by cases c <;> exact h
  after _ c r := after_give _ c r

/-! ## The main thread -/

/-- At `k_sem_take`, after `k` of them have returned. -/
structure AtRest (cfg : CloudConfig) (k : Nat) (w : CloudWorld) : Prop where
  clean : w.Clean
  attached : w.attached = true
  length : w.posts.length ≤ k
  request : ∀ post ∈ w.posts, ∃ p members, Encodes ⟨true⟩ members ∧
    post.request = publishRequest cfg (p, unformatted members ++ [0])

/-- What `main` leaves when it returns `err` before its loop, or enters it. -/
structure Initialized (err : Int) (w : CloudWorld) : Prop where
  clean : w.Clean
  posts : w.posts = []
  attached : ¬ err < 0 → w.attached = true

theorem cloudInit_correct {Q : Int → CloudWorld → Prop} (hready : w.modemReady = true)
    (hattached : w.attached = false)
    (hQ : ∀ caChain written cmpFailed, Q 0 { w with caChain, written, cmpFailed }) :
    Correct (cloudProtocol cfg) Q (cloudInit cfg true) w :=
  correct_bind.mpr (certProvision_correct hready hattached fun _ _ _ _ => hQ _ _ _)

theorem mainInit_correct :
    Correct (cloudProtocol cfg) Initialized (mainInit cfg) (.start caChain) := by
  have hclean : (CloudWorld.start caChain).Clean := by constructor <;> exact fun _ => rfl
  rw [mainInit, correct_bind, correct_perform]
  refine ⟨⟨rfl, trivial⟩, fun err _ => ?_⟩
  by_cases h : err < 0
  · simp only [h, if_true]
    have hw : (cloudProtocol cfg).after (.start caChain) nrfModemLibInit err = .start caChain :=
      if_pos h
    rw [hw]
    exact ⟨hclean, rfl, fun h' => absurd h h'⟩
  have hw : (cloudProtocol cfg).after (.start caChain) nrfModemLibInit err =
      { CloudWorld.start caChain with modemReady := true } := if_neg h
  simp only [h, if_false]
  rw [hw]
  refine correct_bind.mpr (cloudInit_correct rfl rfl fun _ _ _ => ?_)
  simp only [lt_self_iff_false, if_false]
  rw [correct_bind, correct_perform]
  refine ⟨⟨rfl, trivial⟩, fun _ _ => ?_⟩
  rw [correct_bind, correct_perform]
  refine ⟨⟨rfl, trivial⟩, fun err _ => ?_⟩
  by_cases h : err < 0
  · simp only [cloudProtocol, after, h, if_true]
    exact ⟨⟨hclean.1, hclean.2, hclean.3, hclean.4⟩, rfl, fun h' => absurd h h'⟩
  simp only [cloudProtocol, after, h, if_false]
  exact ⟨⟨trivial, trivial⟩, fun _ _ => ⟨⟨trivial, trivial⟩, fun _ _ =>
    ⟨⟨hclean.1, hclean.2, hclean.3, hclean.4⟩, rfl, fun _ => rfl⟩⟩⟩

theorem AtRest.addPosts {ret : Int} {posts : List CloudPost} (h : AtRest cfg k w)
    (hp : Published cfg ⟨true⟩ ret posts) : AtRest cfg (k + 1) (w.addPosts posts) where
  clean := ⟨h.clean.1, h.clean.2, h.clean.3, h.clean.4⟩
  attached := h.attached
  length := by
    have hw := h.length
    have honce := hp.once
    rw [CloudWorld.addPosts, List.length_append]
    omega
  request := List.forall_mem_append.mpr ⟨h.request, hp.request⟩

namespace CloudNode

def Safe (cfg : CloudConfig) (k : Nat) (n : CloudNode) : Prop :=
  match n.main with
  | .init rest => Correct (cloudProtocol cfg) Initialized rest n.world
  | .take => AtRest cfg k n.world
  | .publish rest => Correct (cloudProtocol cfg) (fun _ w => AtRest cfg k w) rest n.world
  | .returned _ => n.world.Clean ∧ n.world.posts = []

theorem safe_give (h : n.Safe cfg k) : Safe cfg k { n with world := n.world.give } := by
  have clean : ∀ {w : CloudWorld}, w.Clean → w.give.Clean := fun hc => ⟨hc.1, hc.2, hc.3, hc.4⟩
  obtain ⟨main, w⟩ := n
  cases main with
  | init rest =>
    exact Correct.interfere give_unseen
      (fun _ _ hi => ⟨clean hi.clean, hi.posts, hi.attached⟩) h
  | take => exact ⟨clean h.clean, h.attached, h.length, h.request⟩
  | publish rest =>
    exact Correct.interfere give_unseen
      (fun _ _ hr => ⟨clean hr.clean, hr.attached, hr.length, hr.request⟩) h
  | returned err => exact ⟨clean h.1, h.2⟩

theorem event_ne_started {β : Type} (c : CloudCall β) : c.event ≠ .started := by
  cases c <;> exact nofun

theorem safe_mainStep (hs : MainStep cfg n e n') (h : n.Safe cfg k) :
    n'.Safe cfg (if e = .started then k + 1 else k) := by
  cases hs with
  | initCall hr => exact h.next hr
  | initReturn herr => exact ⟨h.clean, h.posts⟩
  | @loop w err herr =>
    have hposts : w.posts = [] := h.posts
    exact ⟨h.clean, h.attached herr, by simp [hposts], by simp [hposts]⟩
  | @take w hsem =>
    -- the semaphore is no concern of a publish
    have h' : AtRest cfg k { w with threadSem := w.threadSem - 1 } :=
      ⟨⟨h.clean.1, h.clean.2, h.clean.3, h.clean.4⟩, h.attached, h.length, h.request⟩
    exact cloudPublish_correct h'.attached fun _ _ hp => h'.addPosts hp
  | publishCall hr =>
    rw [if_neg (event_ne_started _)]
    exact h.next hr
  | publishReturn => exact h

theorem count_snoc : (es ++ [e]).count .started =
    if e = .started then es.count .started + 1 else es.count .started := by
  by_cases h : e = .started <;> simp [h]

theorem safe_run (h : Run cfg caChain es n) : n.Safe cfg (es.count .started) := by
  induction h with
  | start => exact mainInit_correct
  | step _ hs ih =>
    rw [count_snoc]
    cases hs with
    | main hm => exact safe_mainStep hm ih
    | timeout | cmdPublish => exact safe_give ih

/-- The main thread is about to make the call. -/
def Calling {β : Type} (n : CloudNode) (c : CloudCall β) : Prop :=
  ∃ next, n.main = .init (.call c next) ∨ n.main = .publish (.call c next)

theorem Safe.allowed {β : Type} {c : CloudCall β} (h : n.Safe cfg k) (hc : n.Calling c) :
    n.world.Permits c ∧ n.world.Trusted cfg c := by
  obtain ⟨main, w⟩ := n
  obtain ⟨next, rfl | rfl⟩ := hc
  · exact Correct.allowed h
  · exact Correct.allowed h

end CloudNode

/-! ## What no call changes -/

/-- What a run keeps of the certificates with which it starts, and what it sends. -/
structure CloudKept (cfg : CloudConfig) (caChain : Nat → Option Bytes) (w : CloudWorld) : Prop where
  trusted : ∀ post ∈ w.posts,
    post.socket.Verified cfg ∧ post.socket.peer = some (cfg.hostname, cfg.port)
  others : ∀ tag, tag ≠ cfg.tlsSecTag → w.caChain tag = caChain tag
  own : w.caChain cfg.tlsSecTag = caChain cfg.tlsSecTag ∨ w.caChain cfg.tlsSecTag = none ∨
    w.caChain cfg.tlsSecTag = some cfg.cert
  provisioned : caChain cfg.tlsSecTag = some cfg.cert → w.cmpFailed = false →
    w.caChain cfg.tlsSecTag = some cfg.cert ∧ w.written = []

theorem CloudKept.of_eq {w' : CloudWorld} (h : CloudKept cfg caChain w) (hposts : w'.posts = w.posts)
    (hca : w'.caChain = w.caChain) (hwritten : w'.written = w.written)
    (hfailed : w'.cmpFailed = w.cmpFailed) : CloudKept cfg caChain w' where
  trusted := hposts ▸ h.trusted
  others := hca ▸ h.others
  own := hca ▸ h.own
  provisioned := hca ▸ hwritten ▸ hfailed ▸ h.provisioned

/-- Where the certificate may be touched, it was not the right one to begin with, or the compare with
it has failed. -/
theorem CloudKept.not_provisioned (h : CloudKept cfg caChain w) (hne : w.Unlike cfg)
    (hf : w.cmpFailed = false) : caChain cfg.tlsSecTag ≠ some cfg.cert := by
  intro hp
  have hfailed := hne (h.provisioned hp hf).1
  simp [hf] at hfailed

theorem CloudKept.setCaChain {w' : CloudWorld} {o : Option Bytes} (h : CloudKept cfg caChain w)
    (hne : w.Unlike cfg) (ho : o = none ∨ o = some cfg.cert) (hposts : w'.posts = w.posts)
    (hca : w'.caChain = Function.update w.caChain cfg.tlsSecTag o)
    (hfailed : w'.cmpFailed = w.cmpFailed) : CloudKept cfg caChain w' where
  trusted := hposts ▸ h.trusted
  others tag htag := by rw [hca, Function.update_of_ne htag, h.others tag htag]
  own := by
    rw [hca, Function.update_self]
    exact .inr ho
  provisioned hp hf := absurd hp (h.not_provisioned hne (hfailed ▸ hf))

theorem CloudKept.after {β : Type} {c : CloudCall β} (h : CloudKept cfg caChain w)
    (hc : w.Trusted cfg c) (r : β) : CloudKept cfg caChain (w.after c r) := by
  cases c with
  | modemKeyMgmtDelete tag =>
    obtain ⟨rfl, hne⟩ := hc
    simp only [CloudWorld.after]
    split
    · exact h.setCaChain hne (.inl rfl) rfl rfl rfl
    · exact h
  | modemKeyMgmtWrite tag cred =>
    obtain ⟨rfl, rfl, hne⟩ := hc
    simp only [CloudWorld.after]
    split
    · exact h.setCaChain hne (.inr rfl) rfl rfl rfl
    · exact ⟨h.trusted, h.others, h.own, fun hp hf => absurd hp (h.not_provisioned hne hf)⟩
  | modemKeyMgmtCmp =>
    simp only [CloudWorld.after]
    split
    · exact ⟨h.trusted, h.others, h.own, fun _ hf => absurd hf (by simp)⟩
    · exact h
  | httpClientReq fd req =>
    refine ⟨List.forall_mem_append.mpr ⟨h.trusted, ?_⟩, h.others, h.own, h.provisioned⟩
    intro post hpost
    obtain ⟨s, hs, rfl⟩ := Option.map_eq_some_iff.mp (Option.mem_toList.mp hpost)
    exact hc s hs
  | getaddrinfo | socket | setsockopt | connect | nrfModemLibInit | lteLcConnect =>
    simp only [CloudWorld.after]
    split <;> exact h.of_eq rfl rfl rfl rfl
  | cjsonCreateObject | cjsonPrintUnformatted => cases r <;> exact h.of_eq rfl rfl rfl rfl
  | cjsonAddBoolToObject obj => cases obj <;> cases r <;> exact h.of_eq rfl rfl rfl rfl
  | cjsonDelete obj => cases obj <;> exact h.of_eq rfl rfl rfl rfl
  | _ => exact h.of_eq rfl rfl rfl rfl

namespace CloudNode

theorem kept_step (hs : Step cfg n e n') (hsafe : n.Safe cfg k) (h : CloudKept cfg caChain n.world) :
    CloudKept cfg caChain n'.world := by
  cases hs with
  | main hm => cases hm with
    | initCall => exact h.after (hsafe.allowed ⟨_, .inl rfl⟩).2 _
    | publishCall => exact h.after (hsafe.allowed ⟨_, .inr rfl⟩).2 _
    | take => exact h.of_eq rfl rfl rfl rfl
    | _ => exact h
  | timeout | cmdPublish => exact h.of_eq rfl rfl rfl rfl

theorem kept_run (h : Run cfg caChain es n) : CloudKept cfg caChain n.world := by
  induction h with
  | start => exact ⟨List.forall_mem_nil _, fun _ _ => rfl, .inl rfl, fun h _ => ⟨h, rfl⟩⟩
  | step hn hs ih => exact kept_step hs (safe_run hn) ih

end CloudNode

/-! ## A run in which every call succeeds -/

def CloudWorld.reply (w : CloudWorld) : {β : Type} → CloudCall β → β
  | _, modemKeyMgmtExists tag => (0, (w.caChain tag).isSome)
  | _, modemKeyMgmtCmp tag cred => if w.caChain tag = some cred then 0 else 1
  | _, cjsonCreateObject => if w.objects 0 = none then some 0 else none
  | _, cjsonAddBoolToObject obj _ _ => obj.isSome
  | _, cjsonPrintUnformatted obj =>
    if w.strings 0 = none then
      (obj.bind w.objects).map fun members => (0, unformatted members ++ [0])
    else none
  | _, getaddrinfo _ => if w.addrs 0 = none then (0, 0) else (1, 0)
  | _, CloudCall.socket _ => if w.sockets 0 = none then 0 else -1
  | _, CloudCall.setsockopt _ _ | _, connect _ _ => (0, 0)
  | _, modemKeyMgmtDelete _ | _, modemKeyMgmtWrite _ _ | _, httpClientReq _ _
  | _, nrfModemLibInit | _, lteLcConnect => (0 : Int)
  | _, cjsonDelete _ | _, cjsonFree _ | _, setSinPort _ _ | _, freeaddrinfo _ | _, close _
  | _, lteLcPsmReq _ | _, kTimerStart | _, kSemGive => ()

theorem possible_reply (w : CloudWorld) {β : Type} (c : CloudCall β) :
    w.Possible c (w.reply c) := by
  cases c with
  | modemKeyMgmtExists tag => exact fun _ => rfl
  | modemKeyMgmtCmp tag cred =>
    by_cases h : w.caChain tag = some cred <;> simp [Possible, reply, h]
  | cjsonCreateObject => by_cases h : w.objects 0 = none <;> simp [Possible, reply, h]
  | cjsonAddBoolToObject => exact id
  | cjsonPrintUnformatted obj =>
    intro m hm
    by_cases h : w.strings 0 = none
    · simp only [reply, h, if_true, Option.mem_def, Option.map_eq_some_iff,
        Option.bind_eq_some_iff] at hm
      obtain ⟨members, ⟨p, hobj, hp⟩, rfl⟩ := hm
      exact ⟨h, p, members, hobj, hp, rfl⟩
    · simp [reply, h] at hm
  | getaddrinfo => by_cases h : w.addrs 0 = none <;> simp [Possible, reply, h]
  | socket => by_cases h : w.sockets 0 = none <;> simp [Possible, reply, h]
  | setsockopt | connect => exact .inl rfl
  | _ => trivial

namespace CloudNode

/-- The next step of the main thread, or a command where it has none. -/
def next (cfg : CloudConfig) : CloudNode → CloudEvent × CloudNode
  | ⟨.init (.call c next), w⟩ => (c.event, ⟨.init (next (w.reply c)), w.after c (w.reply c)⟩)
  | ⟨.init (.pure err), w⟩ => (.other, if err < 0 then ⟨.returned err, w⟩ else ⟨.take, w⟩)
  | ⟨.take, w⟩ =>
    if w.threadSem ≠ 0 then
      (.started, ⟨.publish (cloudPublish cfg ⟨true⟩), { w with threadSem := w.threadSem - 1 }⟩)
    else (.requested, ⟨.take, w.give⟩)
  | ⟨.publish (.call c next), w⟩ =>
    (c.event, ⟨.publish (next (w.reply c)), w.after c (w.reply c)⟩)
  | ⟨.publish (.pure _), w⟩ => (.other, ⟨.take, w⟩)
  | ⟨.returned err, w⟩ => (.requested, ⟨.returned err, w.give⟩)

theorem next_cases (n : CloudNode) : MainStep cfg n (n.next cfg).1 (n.next cfg).2 ∨
    (∀ e n', ¬ MainStep cfg n e n') ∧
      n.next cfg = (.requested, { n with world := n.world.give }) := by
  obtain ⟨main, w⟩ := n
  rcases main with (err | ⟨c, next⟩) | _ | (err | ⟨c, next⟩) | err
  · by_cases h : err < 0
    · rw [show next cfg ⟨.init (.pure err), w⟩ = (.other, ⟨.returned err, w⟩) by simp [next, h]]
      exact .inl (.initReturn h)
    · rw [show next cfg ⟨.init (.pure err), w⟩ = (.other, ⟨.take, w⟩) by simp [next, h]]
      exact .inl (.loop h)
  · exact .inl (.initCall (possible_reply w c))
  · by_cases h : w.threadSem = 0
    · exact .inr ⟨fun _ _ ht => by cases ht; contradiction, by simp [next, h]⟩
    · rw [show next cfg ⟨.take, w⟩ = (.started, ⟨.publish (cloudPublish cfg ⟨true⟩),
        { w with threadSem := w.threadSem - 1 }⟩) by simp [next, h]]
      exact .inl (.take h)
  · exact .inl .publishReturn
  · exact .inl (.publishCall (possible_reply w c))
  · exact .inr ⟨fun _ _ => nofun, rfl⟩

theorem step_next (n : CloudNode) : Step cfg n (n.next cfg).1 (n.next cfg).2 := by
  rcases next_cases n with h | ⟨_, h⟩
  · exact .main h
  · rw [h]
    exact .cmdPublish

/-- The node after `i` steps. -/
def nth (cfg : CloudConfig) (caChain : Nat → Option Bytes) : Nat → CloudNode
  | 0 => start cfg caChain
  | i + 1 => ((nth cfg caChain i).next cfg).2

theorem fairRun_nth :
    FairRun cfg caChain (nth cfg caChain) fun i => ((nth cfg caChain i).next cfg).1 where
  start := rfl
  step i := step_next (nth cfg caChain i)
  fair i h := by
    rcases next_cases (nth cfg caChain i) with hm | ⟨hno, _⟩
    · exact ⟨i, le_rfl, hm⟩
    · obtain ⟨e, n', hm⟩ := h
      exact absurd hm (hno e n')

theorem FairRun.run {ns : Nat → CloudNode} {es : Nat → CloudEvent} (h : FairRun cfg caChain ns es)
    (i : Nat) : Run cfg caChain ((List.range i).map es) (ns i) := by
  induction i with
  | zero => exact h.start ▸ .start
  | succ i ih =>
    rw [List.range_succ, List.map_append]
    exact .step ih (h.step i)

end CloudNode

/-- The defaults of `Kconfig`. The certificate stands for any other. -/
def CloudConfig.default : CloudConfig where
  hostname := lit "postman-echo.com"
  port := 443
  publishPath := lit "/post"
  tlsSecTag := 42
  cert := lit "-----BEGIN CERTIFICATE-----"
  certNoNul := by decide

def MainPc.isTake : MainPc → Bool
  | .take => true
  | _ => false

theorem MainPc.eq_take_of_isTake {pc : MainPc} (h : pc.isTake = true) : pc = .take := by
  cases pc <;> simp [isTake] at h ⊢

/-! ## Every run -/

open CloudNode

/-- **No call is made that is not permitted: no handle is used before it is handed out, used after
it is given back or given back twice, nothing goes over the network before the modem is attached,
and no certificate is written after. Where the main thread waits, and when it has returned, no
handle is left.** -/
theorem calls_permitted (h : Run cfg caChain es n) :
    (∀ (β : Type) (c : CloudCall β), n.Calling c → n.world.Permits c) ∧
      (n.main = .take ∨ (∃ err, n.main = .returned err) → n.world.Clean) := by
  have hsafe := safe_run h
  refine ⟨fun β c hc => (hsafe.allowed hc).1, ?_⟩
  obtain ⟨main, w⟩ := n
  rintro (rfl | ⟨err, rfl⟩)
  · exact AtRest.clean hsafe
  · exact And.left hsafe

/-- Where the connection of the first publish is closed. -/
theorem calls_permitted_close :
    (nth .default (fun _ => none) 25).world.Permits (close 0) := by
  have hc : (nth .default (fun _ => none) 25).Calling (close 0) := ⟨_, .inr rfl⟩
  exact (calls_permitted (fairRun_nth.run 25)).1 Unit (close 0) hc

/-- **Whatever the calls return, a request goes only to the configured server, on a socket that
requires the peer to show a certificate for its name from the provisioned root. Where the main
thread waits, it has sent at most one request for each time that the semaphore was taken, and each
carries the JSON of the data, or of an empty object.** -/
theorem posts_trusted (h : Run cfg caChain es n) :
    (∀ post ∈ n.world.posts,
      post.socket.Verified cfg ∧ post.socket.peer = some (cfg.hostname, cfg.port)) ∧
    (n.main = .take → n.world.posts.length ≤ es.count .started ∧
      ∀ post ∈ n.world.posts, ∃ p members, Encodes ⟨true⟩ members ∧
        post.request = publishRequest cfg (p, unformatted members ++ [0])) := by
  refine ⟨(kept_run h).trusted, ?_⟩
  have hsafe := safe_run h
  obtain ⟨main, w⟩ := n
  rintro rfl
  exact ⟨AtRest.length hsafe, AtRest.request hsafe⟩

/-- The first publish has returned. -/
theorem posts_trusted_first :
    (nth .default (fun _ => none) 28).world.posts.length = 1 ∧
      ∀ post ∈ (nth .default (fun _ => none) 28).world.posts, ∃ p members,
        Encodes ⟨true⟩ members ∧
          post.request = publishRequest .default (p, unformatted members ++ [0]) :=
  have hmain : (nth .default (fun _ => none) 28).main = .take :=
    MainPc.eq_take_of_isTake (by decide +kernel)
  ⟨by decide +kernel, ((posts_trusted (fairRun_nth.run 28)).2 hmain).2⟩

/-- **The certificates of the modem at other tags are never touched. The one at the configured tag
is at any time what it was, gone or the right one. Where it was the right one, and the compare with
it has not failed, it stays so and none is ever written.** -/
theorem certificate_kept (h : Run cfg caChain es n) :
    (∀ tag, tag ≠ cfg.tlsSecTag → n.world.caChain tag = caChain tag) ∧
      (n.world.caChain cfg.tlsSecTag = caChain cfg.tlsSecTag ∨
        n.world.caChain cfg.tlsSecTag = none ∨
          n.world.caChain cfg.tlsSecTag = some cfg.cert) ∧
      (caChain cfg.tlsSecTag = some cfg.cert → n.world.cmpFailed = false →
        n.world.caChain cfg.tlsSecTag = some cfg.cert ∧ n.world.written = []) :=
  have hkept := kept_run h
  ⟨hkept.others, hkept.own, hkept.provisioned⟩

theorem certificate_kept_again :
    (nth .default (fun _ => some CloudConfig.default.cert) 28).world.written = [] :=
  ((certificate_kept (fairRun_nth.run 28)).2.2 rfl (by decide +kernel)).2

end ZephyrSiot
