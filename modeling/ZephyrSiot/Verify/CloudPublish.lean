import ZephyrSiot.CloudWorld

/-!
# A publish to the cloud

What each function of the client does to the world when its calls do what they are documented to:
it makes no call that is not permitted, gives every handle back and reports an error exactly when
nothing was sent.
-/

namespace ZephyrSiot
open CStr Calls CloudCall CloudWorld

variable {cfg : CloudConfig} {w : CloudWorld} {fd : Int} {res : Nat} {s : TlsSocket}
  {Q : Int → CloudWorld → Prop}

/-! ## The socket -/

theorem setsockopt_bind {option : SocketOption} {f : Int × Int → CloudProgram Int}
    (hs : w.sockets fd = some s) (hpeer : s.peer = none)
    (hok : ∀ errno, Correct (cloudProtocol cfg) Q (f (0, errno))
      (w.setSocket fd (some (s.setsockopt option))))
    (herr : ∀ errno, 0 < errno → Correct (cloudProtocol cfg) Q (f (-1, errno)) w) :
    Correct (cloudProtocol cfg) Q (perform (setsockopt fd option) >>= f) w := by
  refine correct_bind.mpr (correct_perform.mpr ⟨⟨⟨s, hs, hpeer⟩, trivial⟩, ?_⟩)
  rintro ⟨err, errno⟩ (h | ⟨h, herrno⟩)
  · obtain rfl : err = 0 := h
    simpa [cloudProtocol, after, hs] using hok errno
  · obtain rfl : err = -1 := h
    simpa [cloudProtocol, after] using herr errno herrno

/-- What `tlsSetup` leaves of a socket when it returns `r`. -/
structure TlsSocket.SetUp (cfg : CloudConfig) (r : Int) (s : TlsSocket) : Prop where
  peer : s.peer = none
  nonpos : r ≤ 0
  verified : r = 0 → s.Verified cfg

theorem tlsSetup_correct (hs : w.sockets fd = some s) (hpeer : s.peer = none)
    (hQ : ∀ r s', s'.SetUp cfg r → Q r (w.setSocket fd (some s'))) :
    Correct (cloudProtocol cfg) Q (tlsSetup cfg fd) w := by
  have failed : ∀ {s' : TlsSocket} {w' : CloudWorld} {rest : CloudProgram Int} {errno : Int},
      w' = w.setSocket fd (some s') → s'.peer = none → 0 < errno →
      Correct (cloudProtocol cfg) Q (if (-1 : Int) ≠ 0 then pure (-errno) else rest) w' := by
    rintro s' _ rest errno rfl hp h
    exact hQ _ _ ⟨hp, by omega, fun h0 => by omega⟩
  have hw : w = w.setSocket fd (some s) := by rw [setSocket, ← hs, Function.update_eq_self]
  rw [tlsSetup]
  refine setsockopt_bind hs hpeer (fun _ => ?_) fun _ h => failed hw hpeer h
  refine setsockopt_bind sockets_setSocket hpeer (fun _ => ?_) fun _ h => failed rfl hpeer h
  rw [setSocket_setSocket]
  refine setsockopt_bind sockets_setSocket hpeer (fun _ => ?_) fun _ h => failed rfl hpeer h
  rw [setSocket_setSocket]
  refine setsockopt_bind sockets_setSocket hpeer (fun _ => ?_) fun _ h => failed rfl hpeer h
  rw [setSocket_setSocket]
  exact hQ 0 _ ⟨hpeer, le_rfl, fun _ => ⟨rfl, rfl, rfl⟩⟩

theorem cleanUp_correct {err : Int} {a : Bytes × Nat} (haddr : w.addrs res = none)
    (hfd : w.sockets fd = none) (hnonneg : 0 ≤ fd) (herr : err < 0 → Q err w)
    (hok : ¬ err < 0 → Q fd (w.setSocket fd (some s))) :
    Correct (cloudProtocol cfg) Q (socketSetup.cleanUp res err fd)
      ((w.setAddr res (some a)).setSocket fd (some s)) := by
  rw [socketSetup.cleanUp, correct_bind, correct_perform]
  refine ⟨⟨by simp [Permits], trivial⟩, fun _ _ => ?_⟩
  have hw : (cloudProtocol cfg).after ((w.setAddr res (some a)).setSocket fd (some s))
      (freeaddrinfo res) () = w.setSocket fd (some s) := by
    show ((w.setAddr res (some a)).setAddr res none).setSocket fd (some s) = _
    rw [setAddr_setAddr, setAddr_self haddr]
  rw [hw]
  by_cases h : err < 0
  · simp only [h, true_and, show fd > -1 by omega, if_true]
    rw [correct_bind, correct_perform]
    refine ⟨⟨by simp [Permits], trivial⟩, fun _ _ => ?_⟩
    have hw' : (cloudProtocol cfg).after (w.setSocket fd (some s)) (close fd) () = w := by
      show (w.setSocket fd (some s)).setSocket fd none = w
      rw [setSocket_setSocket, setSocket_self hfd]
    rw [hw']
    exact herr h
  · simp only [h, false_and, if_false]
    exact hok h

theorem cleanUp_noSocket {err : Int} {a : Bytes × Nat} (haddr : w.addrs res = none)
    (herr : err < 0) (hQ : Q err w) :
    Correct (cloudProtocol cfg) Q (socketSetup.cleanUp res err (-1))
      (w.setAddr res (some a)) := by
  rw [socketSetup.cleanUp, correct_bind, correct_perform]
  refine ⟨⟨by simp [Permits], trivial⟩, fun _ _ => ?_⟩
  have hw : (cloudProtocol cfg).after (w.setAddr res (some a)) (freeaddrinfo res) () = w := by
    show (w.setAddr res (some a)).setAddr res none = w
    rw [setAddr_setAddr, setAddr_self haddr]
  rw [hw]
  simp only [herr, true_and, if_true]
  exact hQ

theorem connect_bind {f : Int × Int → CloudProgram Int} (hs : w.sockets fd = some s)
    (hres : w.addrs res = some (cfg.hostname, cfg.port)) (hpeer : s.peer = none)
    (hv : s.Verified cfg)
    (hok : ∀ errno, Correct (cloudProtocol cfg) Q (f (0, errno))
      (w.setSocket fd (some { s with peer := some (cfg.hostname, cfg.port) })))
    (herr : ∀ errno, 0 < errno → Correct (cloudProtocol cfg) Q (f (-1, errno)) w) :
    Correct (cloudProtocol cfg) Q (perform (connect fd res) >>= f) w := by
  have hv' : ∀ t ∈ w.sockets fd, t.Verified cfg := by
    intro t ht
    rw [hs] at ht
    exact Option.some.inj ht ▸ hv
  refine correct_bind.mpr (correct_perform.mpr ⟨⟨⟨⟨s, hs, hpeer⟩, by simp [hres]⟩, hv', hres⟩, ?_⟩)
  rintro ⟨err, errno⟩ (h | ⟨h, herrno⟩)
  · obtain rfl : err = 0 := h
    simpa [cloudProtocol, after, hs, hres] using hok errno
  · obtain rfl : err = -1 := h
    simpa [cloudProtocol, after] using herr errno herrno

theorem socketSetup_correct (hattached : w.attached = true) (herr : ∀ err, err < 0 → Q err w)
    (hok : ∀ fd s, 0 ≤ fd → w.sockets fd = none → s.Verified cfg →
      s.peer = some (cfg.hostname, cfg.port) → Q fd (w.setSocket fd (some s))) :
    Correct (cloudProtocol cfg) Q (socketSetup cfg) w := by
  rw [socketSetup, correct_bind, correct_perform]
  refine ⟨⟨hattached, trivial⟩, ?_⟩
  rintro ⟨err, res⟩ (haddr : err = 0 → w.addrs res = none)
  by_cases h : err = 0
  swap
  · simpa [cloudProtocol, after, h] using herr (-eio) (by decide)
  subst h
  replace haddr := haddr rfl
  simp only [ne_eq, not_true_eq_false, if_false]
  rw [correct_bind, correct_perform]
  refine ⟨⟨by simp [cloudProtocol, after, Permits], trivial⟩, fun _ _ => ?_⟩
  have hw : (cloudProtocol cfg).after ((cloudProtocol cfg).after w (getaddrinfo cfg.hostname)
      (0, res)) (setSinPort res cfg.port) () = w.setAddr res (some (cfg.hostname, cfg.port)) := by
    simp [cloudProtocol, after]
  rw [hw, correct_bind, correct_perform]
  refine ⟨⟨by simp [Permits], trivial⟩, ?_⟩
  rintro fd (rfl | ⟨hnonneg, hfd⟩)
  · exact cleanUp_noSocket haddr (by decide) (herr _ (by decide))
  have hfd' : fd ≠ -1 := by omega
  simp only [cloudProtocol, after, hfd', if_false]
  have failed : ∀ {s : TlsSocket} {rest : CloudProgram Int} {errno : Int}, 0 < errno →
      Correct (cloudProtocol cfg) Q
        (if (-1 : Int) ≠ 0 then socketSetup.cleanUp res (-errno) fd else rest)
        ((w.setAddr res (some (cfg.hostname, cfg.port))).setSocket fd (some s)) := fun h =>
    cleanUp_correct haddr hfd hnonneg (fun h => herr _ h) fun h => absurd h (by omega)
  refine setsockopt_bind sockets_setSocket rfl (fun _ => ?_) fun _ h => failed h
  rw [setSocket_setSocket]
  refine setsockopt_bind sockets_setSocket rfl (fun _ => ?_) fun _ h => failed h
  rw [setSocket_setSocket]
  refine correct_bind.mpr (tlsSetup_correct sockets_setSocket rfl fun r s hs => ?_)
  rw [setSocket_setSocket]
  by_cases hr : r < 0
  · simp only [hr, if_true]
    exact cleanUp_correct haddr hfd hnonneg (fun h => herr _ h) (absurd hr)
  have hv := hs.verified (by have := hs.nonpos; omega)
  simp only [hr, if_false]
  refine connect_bind sockets_setSocket addrs_setAddr hs.peer hv (fun _ => ?_) fun errno h => ?_
  · rw [setSocket_setSocket]
    exact cleanUp_correct haddr hfd hnonneg (fun h => herr _ h) fun _ =>
      hok fd _ hnonneg hfd ⟨hv.peerVerify, hv.secTagList, hv.hostname⟩ rfl
  · exact cleanUp_correct haddr hfd hnonneg (fun h => herr _ h) fun h' => absurd h' (by simp; omega)

/-! ## The request -/

/-- The members of the object. It stays empty when there is no memory for the item. -/
def Encodes (data : DeviceData) (members : List (Bytes × Bool)) : Prop :=
  members = [(lit "do_something", data.doSomething)] ∨ members = []

theorem print_bind {p : Nat} {members : List (Bytes × Bool)}
    {f : Option (Nat × Bytes) → CloudProgram Int} (hp : w.objects p = none)
    (hnone : Correct (cloudProtocol cfg) Q (f none) w)
    (hsome : ∀ q, w.strings q = none →
      Correct (cloudProtocol cfg) Q (f (some (q, unformatted members ++ [0])))
        (w.setString q (some (unformatted members ++ [0])))) :
    Correct (cloudProtocol cfg) Q (do
      let msg ← perform (cjsonPrintUnformatted (some p))
      perform (cjsonDelete (some p))
      f msg) (w.setObject p (some members)) := by
  rw [correct_bind, correct_perform]
  refine ⟨⟨by simp [Permits, IsObject], trivial⟩, ?_⟩
  intro msg hmsg
  rw [correct_bind, correct_perform]
  cases msg with
  | none =>
    refine ⟨⟨by simp [Permits, IsObject, cloudProtocol, after], trivial⟩, fun _ _ => ?_⟩
    simpa [cloudProtocol, after, setObject_self hp] using hnone
  | some msg =>
    obtain ⟨hq, _, members', ⟨⟩, hmembers, htext⟩ := hmsg msg rfl
    obtain rfl : members = members' := by simpa using hmembers
    obtain ⟨q, text⟩ := msg
    obtain rfl : text = _ := htext
    refine ⟨⟨by simp [Permits, IsObject, cloudProtocol, after], trivial⟩,
      fun _ _ => ?_⟩
    have hw : ((w.setObject p (some members)).setString q
        (some (unformatted members ++ [0]))).setObject p none =
        w.setString q (some (unformatted members ++ [0])) := by
      show ((w.setObject p (some members)).setObject p none).setString q _ = _
      rw [setObject_setObject, setObject_self hp]
    simpa only [cloudProtocol, after, Option.elim, hw] using hsome q hq

theorem encode_bind {data : DeviceData} {f : Option (Nat × Bytes) → CloudProgram Int}
    (hnone : Correct (cloudProtocol cfg) Q (f none) w)
    (hsome : ∀ members, Encodes data members → ∀ q, w.strings q = none →
      Correct (cloudProtocol cfg) Q (f (some (q, unformatted members ++ [0])))
        (w.setString q (some (unformatted members ++ [0])))) :
    Correct (cloudProtocol cfg) Q (do
      let obj ← perform cjsonCreateObject
      let _ ← perform (cjsonAddBoolToObject obj (lit "do_something") data.doSomething)
      let msg ← perform (cjsonPrintUnformatted obj)
      perform (cjsonDelete obj)
      f msg) w := by
  rw [correct_bind, correct_perform]
  refine ⟨⟨trivial, trivial⟩, ?_⟩
  rintro obj (hobj : ∀ p ∈ obj, w.objects p = none)
  rw [correct_bind, correct_perform]
  cases obj with
  | none =>
    -- without an object the next calls do nothing
    refine ⟨⟨by simp [Permits, IsObject], trivial⟩, ?_⟩
    rintro added (hadded : added = true → none.isSome)
    obtain rfl : added = false := by simpa using hadded
    rw [correct_bind, correct_perform]
    refine ⟨⟨by simp [Permits, IsObject], trivial⟩, ?_⟩
    rintro msg (hmsg : ∀ m ∈ msg, _)
    obtain rfl : msg = none := by simpa [Option.eq_none_iff_forall_ne_some] using hmsg
    rw [correct_bind, correct_perform]
    exact ⟨⟨by simp [Permits, IsObject], trivial⟩, fun _ _ => hnone⟩
  | some p =>
    have hp := hobj p rfl
    refine ⟨⟨by simp [Permits, IsObject, cloudProtocol, after], trivial⟩, ?_⟩
    rintro (_ | _) _
    · exact print_bind hp hnone (hsome [] (.inr rfl))
    · simpa [cloudProtocol, after] using print_bind hp hnone (hsome _ (.inl rfl))

/-- The requests that one publish makes when it returns `ret`. -/
structure Published (cfg : CloudConfig) (data : DeviceData) (ret : Int) (posts : List CloudPost) :
    Prop where
  nonpos : ret ≤ 0
  once : posts.length ≤ 1
  honest : ret = 0 ↔ ∃ post ∈ posts, 0 ≤ post.result
  request : ∀ post ∈ posts, ∃ p members, Encodes data members ∧
    post.request = publishRequest cfg (p, unformatted members ++ [0])
  trusted : ∀ post ∈ posts,
    post.socket.Verified cfg ∧ post.socket.peer = some (cfg.hostname, cfg.port)

theorem published_nil {data : DeviceData} {ret : Int} (h : ret < 0) : Published cfg data ret [] :=
  ⟨h.le, Nat.zero_le _, by simp; omega, by simp, by simp⟩

theorem published_post {data : DeviceData} {q : Nat} {members : List (Bytes × Bool)}
    {ret ret' : Int} (hmembers : Encodes data members) (hv : s.Verified cfg)
    (hpeer : s.peer = some (cfg.hostname, cfg.port)) (hret' : ret' ≤ 0)
    (hiff : ret' = 0 ↔ 0 ≤ ret) :
    Published cfg data ret' [⟨publishRequest cfg (q, unformatted members ++ [0]), s, ret⟩] where
  nonpos := hret'
  once := le_rfl
  honest := by simpa using hiff
  request := List.forall_mem_singleton.mpr ⟨q, members, hmembers, rfl⟩
  trusted := List.forall_mem_singleton.mpr ⟨hv, hpeer⟩

theorem send_bind {q : Nat} {text : Bytes} {f : Int → CloudProgram Int}
    (hq : w.strings q = none) (hfd : w.sockets fd = none) (hv : s.Verified cfg)
    (hpeer : s.peer = some (cfg.hostname, cfg.port))
    (hf : ∀ ret, Correct (cloudProtocol cfg) Q (f ret)
      (w.addPosts [⟨publishRequest cfg (q, text), s, ret⟩])) :
    Correct (cloudProtocol cfg) Q (do
      let ret ← perform (httpClientReq fd (publishRequest cfg (q, text)))
      perform (close fd)
      perform (cjsonFree q)
      f ret) ((w.setString q (some text)).setSocket fd (some s)) := by
  have htrusted : ∀ t ∈ ((w.setString q (some text)).setSocket fd (some s)).sockets fd,
      t.Verified cfg ∧ t.peer = some (cfg.hostname, cfg.port) := by
    rintro t ht
    obtain rfl : s = t := by simpa using ht
    exact ⟨hv, hpeer⟩
  rw [correct_bind, correct_perform]
  refine ⟨⟨⟨⟨s, sockets_setSocket, by rw [hpeer]; rfl⟩, strings_setString, cstr_length_le _⟩,
    htrusted⟩, fun ret _ => ?_⟩
  rw [correct_bind, correct_perform]
  refine ⟨⟨by simp [Permits, cloudProtocol, after], trivial⟩, fun _ _ => ?_⟩
  rw [correct_bind, correct_perform]
  refine ⟨⟨by simp [Permits, cloudProtocol, after], trivial⟩, fun _ _ => ?_⟩
  have hpost : (((w.setString q (some text)).setSocket fd (some s)).sockets fd).map
      (fun t => CloudPost.mk (publishRequest cfg (q, text)) t ret) =
      some ⟨publishRequest cfg (q, text), s, ret⟩ := by
    rw [sockets_setSocket]
    rfl
  show Correct _ _ _ (((((w.setString q (some text)).setSocket fd (some s)).setSocket fd
    none).setString q none).addPosts (Option.toList _))
  rw [hpost, setSocket_setSocket, setSocket_self (w := w.setString q (some text)) hfd,
    setString_setString, setString_self hq]
  exact hf ret

/-- A publish gives back what it takes, and leaves nothing but the request that it has made. -/
theorem cloudPublish_correct {data : DeviceData} (hattached : w.attached = true)
    (hQ : ∀ ret posts, Published cfg data ret posts → Q ret (w.addPosts posts)) :
    Correct (cloudProtocol cfg) Q (cloudPublish cfg data) w := by
  have unsent : ∀ ret, ret < 0 → Q ret w := fun ret h => by
    simpa [addPosts] using hQ ret [] (published_nil h)
  rw [cloudPublish]
  refine encode_bind (unsent _ (by decide)) fun members hmembers q hq => ?_
  refine correct_bind.mpr (socketSetup_correct hattached (fun err herr => ?_) ?_)
  · simp only [herr, if_true]
    rw [correct_bind, correct_perform]
    refine ⟨⟨by simp [Permits], trivial⟩, fun _ _ => ?_⟩
    show Q err ((w.setString q (some _)).setString q none)
    rw [setString_setString, setString_self hq]
    exact unsent err herr
  rintro fd s hfd hfree hv hpeer
  simp only [show ¬ fd < 0 by omega, if_false]
  refine send_bind hq hfree hv hpeer fun ret => ?_
  by_cases h : ret < 0
  · simp only [h, if_true]
    exact hQ ret _ (published_post hmembers hv hpeer h.le (by omega))
  · simp only [h, if_false]
    exact hQ 0 _ (published_post hmembers hv hpeer le_rfl (by simpa using h))

/-! ## The certificate -/

/-- A compare that does not say that the certificates are equal: they differ, or it has failed. -/
theorem after_cmp (cfg : CloudConfig) (w : CloudWorld) {mismatch : Int} (h : mismatch ≠ 0) :
    ∃ cmpFailed, w.after (modemKeyMgmtCmp cfg.tlsSecTag cfg.cert) mismatch = { w with cmpFailed } ∧
      Unlike cfg { w with cmpFailed } := by
  by_cases he : w.caChain cfg.tlsSecTag = some cfg.cert
  · exact ⟨true, by simp [after, h, he], fun _ => rfl⟩
  · exact ⟨w.cmpFailed, by simp [after, he], fun he' => absurd he' he⟩

theorem certProvision_write_correct (hready : w.modemReady = true) (hattached : w.attached = false)
    (hne : w.Unlike cfg) (hQ : ∀ ret caChain written, Q ret { w with caChain, written }) :
    Correct (cloudProtocol cfg) Q (certProvision.write cfg) w := by
  rw [certProvision.write, correct_bind, correct_perform]
  refine ⟨⟨⟨hready, hattached⟩, rfl, rfl, hne⟩, fun err _ => ?_⟩
  by_cases h : err = 0
  · subst h
    exact hQ 0 _ _
  · simp only [cloudProtocol, after, h, ne_eq, not_false_eq_true, if_true, if_false]
    exact hQ err _ _

theorem certProvision_correct (hready : w.modemReady = true) (hattached : w.attached = false)
    (hQ : ∀ ret caChain written cmpFailed, Q ret { w with caChain, written, cmpFailed }) :
    Correct (cloudProtocol cfg) Q (certProvision cfg) w := by
  have hcert : cstr cfg.cert = cfg.cert := cstr_eq_self cfg.certNoNul
  rw [certProvision, correct_bind, correct_perform]
  refine ⟨⟨hready, trivial⟩, ?_⟩
  rintro ⟨err, present⟩ (hpresent : err = 0 → present = (w.caChain cfg.tlsSecTag).isSome)
  by_cases h : err = 0
  swap
  · simp only [h, ne_eq, not_false_eq_true, if_true]
    exact hQ err _ _ _
  subst h
  replace hpresent := hpresent rfl
  simp only [ne_eq, not_true_eq_false, if_false]
  cases present with
  | false =>
    have hne : w.Unlike cfg := fun he => by simp [he] at hpresent
    exact certProvision_write_correct hready hattached hne fun ret _ _ => hQ ret _ _ _
  | true =>
    simp only [if_true]
    rw [correct_bind, correct_perform]
    refine ⟨⟨hready, trivial⟩, fun mismatch _ => ?_⟩
    by_cases hm : mismatch = 0
    · subst hm
      exact hQ 0 _ _ _
    simp only [hm, if_false, hcert]
    obtain ⟨cmpFailed, hw, hne⟩ := after_cmp cfg w hm
    show Correct _ _ _ (w.after (modemKeyMgmtCmp cfg.tlsSecTag cfg.cert) mismatch)
    rw [hw, correct_bind, correct_perform]
    refine ⟨⟨⟨hready, hattached⟩, rfl, hne⟩, fun err _ => ?_⟩
    by_cases hd : err = 0
    · simp only [cloudProtocol, after, hd, if_true]
      exact certProvision_write_correct hready hattached (by simp [Unlike, setCaChain])
        fun ret _ _ => hQ ret _ _ _
    · simp only [cloudProtocol, after, hd, if_false]
      exact certProvision_write_correct hready hattached hne fun ret _ _ => hQ ret _ _ _

end ZephyrSiot
