import Klibc.Nfsmount.DummyPmap

/-! # The fields of a request that are read

Each function of the port mapper reads words of the request that lie within it, and returns what the
request says at these words. The functions on lists below (`authEnd`, `argsOf`, `answerOf`) read
the request itself, without what lies behind it. -/

namespace Klibc.Nfsmount.PmapBounds

open Lib.Total Lib.Xdr SunRpc DummyPmap List

structure Within (s : DummyPmap.Sys) : Prop where
  pktlen : s.pktlen ≤ sizeofPkt
  reads : ∀ r ∈ s.reads, r.off + 4 ≤ r.pktlen

/-! ### Reading words -/

lemma length_request (s : DummyPmap.Sys) : s.request.length = s.pktlen := by
  rw [DummyPmap.Sys.request, length_map, length_range]

variable {s : DummyPmap.Sys}

lemma getD_request {i : ℕ} (h : i < s.pktlen) : s.request.getD i 0 = s.pkt i := by
  rw [DummyPmap.Sys.request, getD_eq_getElem?_getD, getElem?_map, getElem?_range h]
  rfl

lemma word_request {i : ℕ} (h : i + 4 ≤ s.pktlen) :
    word [s.pkt i, s.pkt (i + 1), s.pkt (i + 2), s.pkt (i + 3)] 0 = word s.request i := by
  simp only [word, getD_request (show i < s.pktlen by omega),
    getD_request (show i + 1 < s.pktlen by omega), getD_request (show i + 2 < s.pktlen by omega),
    getD_request (show i + 3 < s.pktlen by omega), getD_cons_zero, getD_cons_succ, Nat.zero_add]

/-- The program while it serves the request `d`, with what it has answered and written before. -/
structure Serving (d : List UInt8) (as : List (List UInt8 × List UInt8)) (ls : List String)
    (s : DummyPmap.Sys) : Prop where
  request : s.request = d
  answers : s.answers = as
  lines : s.lines = ls
  within : Within s

lemma Serving.pktlen {d : List UInt8} {as : List (List UInt8 × List UInt8)} {ls : List String}
    (hs : Serving d as ls s) : s.pktlen = d.length := by
  rw [← hs.request, length_request]

section
variable {s : DummyPmap.Sys} {d : List UInt8} {as : List (List UInt8 × List UInt8)}
  {ls : List String} {auth cred vrf args : ℕ}

/-- **A word of the request** is read within it. -/
theorem returns_load {i : ℕ} {Q : ℕ → DummyPmap.Sys → Prop} (hs : Serving d as ls s)
    (h : i + 4 ≤ d.length) (hQ : ∀ t, Serving d as ls t → Q (word d i) t) :
    Returns (load i) s Q := by
  have hlen : i + 4 ≤ s.pktlen := h.trans hs.pktlen.ge
  have he : load i s = some (word d i, { s with reads := s.reads ++ [⟨s.pktlen, i⟩] }) := by
    rw [← hs.request, ← word_request hlen]
    exact if_pos (hlen.trans hs.within.pktlen)
  rw [returns_iff_of_eq he]
  refine hQ _ ⟨hs.request, hs.answers, hs.lines, hs.within.pktlen, fun r hr => ?_⟩
  rcases mem_append.1 hr with hr | hr
  · exact hs.within.reads r hr
  · rw [mem_singleton.1 hr]
    exact hlen

/-! ### The checks -/

/-- Where the authenticator at `auth` ends. -/
def authEnd (d : List UInt8) (auth : ℕ) : Option ℕ :=
  if word d auth = AUTH_NULL ∨ word d auth = AUTH_UNIX then some (auth + 8 + word d (auth + 4))
  else none

lemma authEnd_eq_some {e : ℕ} (h : authEnd d auth = some e) : e = auth + 8 + word d (auth + 4) := by
  unfold authEnd at h
  split_ifs at h
  cases h
  rfl

lemma returns_getAuth {Q : Option ℕ → DummyPmap.Sys → Prop} (hs : Serving d as ls s)
    (h : auth + 8 ≤ d.length) (hQ : ∀ t, Serving d as ls t → Q (authEnd d auth) t) :
    Returns (getAuth auth) s Q := by
  unfold authEnd at hQ
  rw [getAuth, returns_bind]
  refine returns_load hs (by omega) fun t ht => ?_
  split_ifs at hQ ⊢
  · rw [returns_bind]
    exact returns_load ht (by omega) fun t ht => returns_pure.2 (hQ t ht)
  · exact returns_pure.2 (hQ t ht)

def UnixCred (d : List UInt8) (cred : ℕ) : Prop :=
  6 ≤ quads (word d (cred + 4)) ∧
    cred + 16 + 4 * (quads (word d (cred + 12)) + 3) ≤ cred + 8 + 4 * quads (word d (cred + 4)) ∧
    word d (cred + 16 + 4 * quads (word d (cred + 12))) = 0 ∧
    word d (cred + 20 + 4 * quads (word d (cred + 12))) = 0

instance (d : List UInt8) (cred : ℕ) : Decidable (UnixCred d cred) :=
  inferInstanceAs (Decidable (_ ∧ _))

variable {Q : ℤ → DummyPmap.Sys → Prop}

lemma returns_checkUnixCred (hs : Serving d as ls s) (h : cred + 8 + word d (cred + 4) ≤ d.length)
    (hQ : ∀ t r, Serving d as ls t → (r = 0 ↔ UnixCred d cred) → Q r t) :
    Returns (checkUnixCred cred) s Q := by
  -- the credential lies in the request, but for what its length is rounded up by
  have hquads : 4 * quads (word d (cred + 4)) ≤ word d (cred + 4) + 3 := by
    unfold quads
    omega
  have hfail : ∀ t, Serving d as ls t → ¬ UnixCred d cred → Returns (pure (-1)) t Q :=
    fun t ht hno => returns_pure.2 (hQ t (-1) ht (iff_of_false (by decide) hno))
  rw [checkUnixCred, returns_bind]
  refine returns_load hs (by omega) fun t ht => ?_
  split_ifs with hshort
  · exact hfail t ht fun hc => absurd hc.1 (not_le.2 hshort)
  rw [returns_bind]
  refine returns_load ht (by omega) fun t ht => ?_
  split_ifs with hname
  · exact hfail t ht fun hc => absurd hc.2.1 (not_le.2 hname)
  rw [returns_bind]
  refine returns_load ht (by omega) fun t ht => ?_
  split_ifs with huid
  · exact hfail t ht fun hc => huid hc.2.2.1
  rw [returns_bind]
  refine returns_load ht (by omega) fun t ht => ?_
  split_ifs with hgid
  · exact hfail t ht fun hc => hgid hc.2.2.2
  · exact returns_pure.2 (hQ t 0 ht (iff_of_true rfl
      ⟨not_lt.1 hshort, not_lt.1 hname, not_not.1 huid, not_not.1 hgid⟩))

def Cred (d : List UInt8) (cred : ℕ) : Prop :=
  word d cred = AUTH_NULL ∨ (word d cred = AUTH_UNIX ∧ UnixCred d cred)

instance (d : List UInt8) (cred : ℕ) : Decidable (Cred d cred) :=
  inferInstanceAs (Decidable (_ ∨ _))

lemma returns_checkCred (hs : Serving d as ls s) (h : cred + 8 + word d (cred + 4) ≤ d.length)
    (hQ : ∀ t r, Serving d as ls t → (r = 0 ↔ Cred d cred) → Q r t) :
    Returns (checkCred cred) s Q := by
  rw [checkCred, returns_bind]
  refine returns_load hs (by omega) fun t ht => ?_
  split_ifs with hnull hunix
  · exact returns_pure.2 (hQ t 0 ht (iff_of_true rfl (Or.inl hnull)))
  · refine returns_checkUnixCred ht h fun t r ht hr => hQ t r ht (hr.trans ?_)
    exact ⟨fun hc => Or.inr ⟨hunix, hc⟩, fun hc => (hc.resolve_left hnull).2⟩
  · refine returns_pure.2 (hQ t (-1) ht (iff_of_false (by decide) ?_))
    exact fun hc => hc.elim hnull fun hc => hunix hc.1

lemma returns_checkVrf (hs : Serving d as ls s) (h : vrf + 8 ≤ d.length)
    (hQ : ∀ t r, Serving d as ls t → (r = 0 ↔ word d vrf = AUTH_NULL) → Q r t) :
    Returns (checkVrf vrf) s Q := by
  rw [checkVrf, returns_bind]
  refine returns_load hs (by omega) fun t ht => returns_pure.2 (hQ t _ ht ?_)
  split_ifs with hnull
  · exact iff_of_true rfl hnull
  · exact iff_of_false (by decide) hnull

/-- Where the arguments of a request are, if its credentials can be dealt with. -/
def argsOf (d : List UInt8) (cred : ℕ) : Option ℕ :=
  match authEnd d cred with
  | none => none
  | some vrf =>
    if vrf > d.length - 8 - sizeofArgs then none
    else match authEnd d vrf with
      | none => none
      | some args =>
        if args > d.length - sizeofArgs then none
        else if ¬ Cred d cred then none
        else if ¬ word d vrf = AUTH_NULL then none
        else some args

lemma argsOf_le (hlen : sizeofPortmapCall ≤ d.length + 4) (h : argsOf d cred = some args) :
    args + sizeofArgs ≤ d.length := by
  have hlen' : 60 ≤ d.length + 4 := hlen
  unfold argsOf at h
  split at h
  · cases h
  split at h
  · cases h
  split at h
  · cases h
  split_ifs at h with hfar
  cases h
  simp only [sizeofArgs] at hfar ⊢
  omega

lemma returns_getArgs {Q : Option ℕ → DummyPmap.Sys → Prop} (hs : Serving d as ls s)
    (hlen : sizeofPortmapCall ≤ d.length + 4) (hcred : cred + 8 ≤ d.length)
    (hQ : ∀ t, Serving d as ls t → Q (argsOf d cred) t) : Returns (getArgs cred) s Q := by
  have hlen' : 60 ≤ d.length + 4 := hlen
  have hreturn : ∀ t r, Serving d as ls t → argsOf d cred = r → Returns (pure r) t Q := by
    rintro t r ht rfl
    exact returns_pure.2 (hQ t ht)
  rw [getArgs, returns_bind, returns_get, returns_bind]
  simp only [hs.pktlen]
  refine returns_getAuth hs hcred fun t ht => ?_
  cases hvrf : authEnd d cred with
  | none => exact hreturn t none ht (by simp only [argsOf, hvrf])
  | some vrf =>
    have hend := authEnd_eq_some hvrf
    simp only
    split_ifs with hlate
    · exact hreturn t none ht (by simp only [argsOf, hvrf, if_pos hlate])
    have hvrf' : vrf + 8 ≤ d.length - sizeofArgs := by
      simp only [sizeofArgs] at hlate ⊢
      omega
    rw [returns_bind]
    refine returns_getAuth ht (by omega) fun t ht => ?_
    cases hargs : authEnd d vrf with
    | none => exact hreturn t none ht (by simp only [argsOf, hvrf, if_neg hlate, hargs])
    | some args =>
      simp only
      split_ifs with hfar
      · refine hreturn t none ht ?_
        simp only [argsOf, hvrf, if_neg hlate, hargs, if_pos hfar]
      rw [returns_bind]
      refine returns_checkCred ht (by omega) fun t r ht hr => ?_
      split_ifs with hc
      · have hc' : ¬ Cred d cred := fun h => hc (hr.2 h)
        refine hreturn t none ht ?_
        simp only [argsOf, hvrf, if_neg hlate, hargs, if_neg hfar, if_pos hc']
      rw [returns_bind]
      refine returns_checkVrf ht (by omega) fun t r' ht hr' => ?_
      have hc' : Cred d cred := hr.1 (not_not.1 hc)
      split_ifs with hv
      · have hv' : ¬ word d vrf = AUTH_NULL := fun h => hv (hr'.2 h)
        refine hreturn t none ht ?_
        simp [argsOf, hvrf, hargs, hc', if_pos hv']
      · have hv' : word d vrf = AUTH_NULL := hr'.1 (not_not.1 hv)
        refine hreturn t (some args) ht ?_
        simp [argsOf, hvrf, if_neg hlate, hargs, if_neg hfar, hc', hv']

/-! ### The answer -/

/-- `rply.port` of a registration. -/
def setPortOf (d : List UInt8) (args : ℕ) : ℕ :=
  if word d (args + 8) = IPPROTO_TCP ∨ word d (args + 8) = IPPROTO_UDP then 1 else 0

lemma returns_setPort {file : Bool} {Q : ℕ → DummyPmap.Sys → Prop} (hs : Serving d as ls s)
    (h : args + sizeofArgs ≤ d.length) (hQ : ∀ ls' t, Serving d as ls' t → Q (setPortOf d args) t) :
    Returns (setPort file args) s Q := by
  have h' : args + 16 ≤ d.length := h
  unfold setPortOf at hQ
  rw [setPort, returns_bind]
  refine returns_load hs (by omega) fun t ht => ?_
  split_ifs at hQ ⊢
  · simp only [returns_bind]
    refine returns_load ht (by omega) fun t ht => ?_
    refine returns_load ht (by omega) fun t ht => ?_
    refine returns_load ht (by omega) fun t ht => ?_
    rw [returns_modify, returns_pure]
    exact hQ _ _ ⟨ht.request, ht.answers, rfl, ht.within.pktlen, ht.within.reads⟩
  · exact returns_pure.2 (hQ ls t ht)
  · exact returns_pure.2 (hQ ls t ht)

/-- `rply.rpc.reply_state` and `rply.port`. -/
def answerOf (d : List UInt8) : ℕ × ℕ :=
  if word d 8 ≠ 2 then (REPLY_DENIED, 0)
  else if word d 12 ≠ PORTMAP_PROGRAM then (PROG_UNAVAIL, 0)
  else if word d 16 ≠ 2 then (PROG_MISMATCH, 0)
  else match argsOf d 24 with
    | none => (SYSTEM_ERR, 0)
    | some args =>
      if word d 20 = PMAP_PROC_NULL then (REPLY_OK, 0)
      else if word d 20 = PMAP_PROC_SET then (REPLY_OK, setPortOf d args)
      else if word d 20 = PMAP_PROC_UNSET then (REPLY_OK, 1)
      else if word d 20 = PMAP_PROC_GETPORT then (REPLY_OK, 0)
      else if word d 20 = PMAP_PROC_DUMP then (REPLY_OK, 0)
      else (PROC_UNAVAIL, 0)

lemma returns_answer {file : Bool} {Q : ℕ × ℕ → DummyPmap.Sys → Prop} (hs : Serving d as ls s)
    (hlen : sizeofPortmapCall ≤ d.length + 4)
    (hQ : ∀ ls' t, Serving d as ls' t → Q (answerOf d) t) : Returns (answer file) s Q := by
  have hlen' : 60 ≤ d.length + 4 := hlen
  unfold answerOf at hQ
  rw [answer, returns_bind]
  refine returns_load hs (by omega) fun t ht => ?_
  by_cases hvers : word d 8 ≠ 2
  · rw [if_pos hvers] at hQ ⊢
    exact returns_pure.2 (hQ ls t ht)
  rw [if_neg hvers] at hQ ⊢
  rw [returns_bind]
  refine returns_load ht (by omega) fun t ht => ?_
  by_cases hprogram : word d 12 ≠ PORTMAP_PROGRAM
  · rw [if_pos hprogram] at hQ ⊢
    exact returns_pure.2 (hQ ls t ht)
  rw [if_neg hprogram] at hQ ⊢
  rw [returns_bind]
  refine returns_load ht (by omega) fun t ht => ?_
  by_cases hversion : word d 16 ≠ 2
  · rw [if_pos hversion] at hQ ⊢
    exact returns_pure.2 (hQ ls t ht)
  rw [if_neg hversion] at hQ ⊢
  rw [returns_bind]
  refine returns_getArgs ht hlen (by omega) fun t ht => ?_
  cases hargs : argsOf d 24 with
  | none =>
    rw [hargs] at hQ
    exact returns_pure.2 (hQ ls t ht)
  | some args =>
    rw [hargs] at hQ
    simp only [returns_bind]
    refine returns_load ht (by omega) fun t ht => ?_
    split_ifs at hQ ⊢
    · exact returns_pure.2 (hQ ls t ht)
    · rw [returns_bind]
      exact returns_setPort ht (argsOf_le hlen hargs) fun ls' t ht => returns_pure.2 (hQ ls' t ht)
    all_goals exact returns_pure.2 (hQ ls t ht)

def Answered (d : List UInt8) : Prop := sizeofPortmapCall ≤ d.length + 4 ∧ word d 4 = RPC_CALL

instance (d : List UInt8) : Decidable (Answered d) := inferInstanceAs (Decidable (_ ∧ _))

def replyTo (d : List UInt8) : List UInt8 := replyBytes (word d 0) (answerOf d).1 (answerOf d).2

def answersTo (d : List UInt8) : List (List UInt8 × List UInt8) :=
  if Answered d then [(d, replyTo d)] else []

/-- **A request is served** with reads that lie within it. -/
theorem returns_serve {file : Bool} (hs : Serving d as ls s) :
    Returns (serve file) s fun _ t => t.answers = as ++ answersTo d ∧ Within t := by
  rw [serve, returns_bind, returns_get]
  simp only [hs.pktlen]
  by_cases hlen : d.length + 4 < sizeofPortmapCall
  · have hno : ¬ Answered d := fun h => absurd h.1 (not_le.2 hlen)
    rw [if_pos hlen, returns_pure, answersTo, if_neg hno, append_nil]
    exact ⟨hs.answers, hs.within⟩
  have hlen' : 60 ≤ d.length + 4 := not_lt.1 hlen
  rw [if_neg hlen, returns_bind]
  refine returns_load hs (by omega) fun t ht => ?_
  by_cases htype : word d 4 ≠ RPC_CALL
  · rw [if_pos htype, returns_pure, answersTo, if_neg fun h => htype h.2, append_nil]
    exact ⟨ht.answers, ht.within⟩
  rw [if_neg htype, answersTo, if_pos ⟨not_lt.1 hlen, not_not.1 htype⟩, returns_bind]
  refine returns_load ht (by omega) fun t ht => ?_
  rw [returns_bind]
  refine returns_answer ht (not_lt.1 hlen) fun ls' t ht => ?_
  rw [returns_modify, ht.request, ht.answers]
  exact ⟨rfl, ht.within.pktlen, ht.within.reads⟩

end

/-! ### Whole runs -/

/-- The datagrams that are received before an error, as far as `pkt` holds them. -/
def received : List Recv → List (List UInt8)
  | [] => []
  | .error true :: rs => received rs
  | .error false :: _ => []
  | .datagram d :: rs => d.take sizeofPkt :: received rs

/-- The program when it starts; `pkt` holds anything. -/
def start (pkt : ℕ → UInt8) : DummyPmap.Sys := ⟨pkt, 0, [], [], []⟩

lemma within_start (pkt : ℕ → UInt8) : Within (start pkt) :=
  ⟨Nat.zero_le _, fun _ hr => absurd hr not_mem_nil⟩

lemma request_recvfrom (d : List UInt8) (pkt : ℕ → UInt8) (s : DummyPmap.Sys) :
    DummyPmap.Sys.request { s with pkt := fun i => d.getD i (pkt i), pktlen := d.length } = d := by
  refine ext_getElem (by rw [length_request]) fun i hi hi' => ?_
  simp [DummyPmap.Sys.request, getElem_map, getElem_range, getD_eq_getElem?_getD,
    getElem?_eq_getElem hi']

/-- **A run** answers the requests that it receives, with reads that lie within them. -/
theorem returns_dummyPortmap (file : Bool) (rs : List Recv) {s : DummyPmap.Sys} (hs : Within s) :
    Returns (dummyPortmap file rs) s fun _ t =>
      t.answers = s.answers ++ (received rs).flatMap answersTo ∧ Within t := by
  induction rs generalizing s with
  | nil =>
    rw [dummyPortmap, returns_pure, received, flatMap_nil, append_nil]
    exact ⟨rfl, hs⟩
  | cons r rs ih =>
    cases r with
    | error eintr =>
      cases eintr with
      | true => exact ih hs
      | false =>
        rw [dummyPortmap, returns_pure, received, flatMap_nil, append_nil]
        exact ⟨rfl, hs⟩
    | datagram d =>
      rw [dummyPortmap, returns_bind, recvfrom, returns_modify, returns_bind]
      have hserving : Serving (d.take sizeofPkt) s.answers s.lines { s with
          pkt := fun i => (d.take sizeofPkt).getD i (s.pkt i)
          pktlen := (d.take sizeofPkt).length } :=
        ⟨request_recvfrom _ _ _, rfl, rfl, length_take_le _ _, hs.reads⟩
      refine (returns_serve hserving).mono fun _ t ht => (ih ht.2).mono fun _ u hu => ⟨?_, hu.2⟩
      rw [hu.1, ht.1, received, flatMap_cons, append_assoc]

/-- **Every field that is read lies within the request**, for every sequence of datagrams. -/
theorem reads_lie_within (file : Bool) (rs : List Recv) (pkt : ℕ → UInt8) :
    Returns (dummyPortmap file rs) (start pkt) fun _ t =>
      ∀ r ∈ t.reads, r.off + 4 ≤ r.pktlen :=
  (returns_dummyPortmap file rs (within_start pkt)).mono fun _ _ ht => ht.2.reads

end Klibc.Nfsmount.PmapBounds
