import Klibc.Nfsmount.Replies
import Klibc.Nfsmount.UnixCred

/-! # The replies of the port mapper

`dummy_portmap` puts the reason for which it rejects a request into `reply_state`, where a client
looks for whether the request was accepted. -/

namespace Klibc.Nfsmount.PmapReplies

open Lib.Total Lib.Xdr SunRpc DummyPmap List Message PmapBounds Replies
open UnixCred (Decodes authUnixAt)

/-! ### Replies that a client understands -/

/-- The credentials of a request are in order: both decode, with the arguments behind them, the one
of the caller is empty or that of the superuser, and the verifier is empty. -/
def Credited (d : List UInt8) : Prop :=
  Returns (do return (← auth, ← auth)) (d.drop 24) fun (a : Auth × Auth) rest =>
    sizeofArgs ≤ rest.length ∧ a.2.flavor = AUTH_NULL ∧
      (a.1.flavor = AUTH_NULL ∨ a.1.flavor = AUTH_UNIX ∧ Decodes (authUnixAt d 24))

instance (d : List UInt8) : Decidable (Credited d) := inferInstanceAs (Decidable (Returns _ _ _))

/-- The `accept_stat` that the program, version, credentials and procedure of a request call for. -/
def StatFor (d : List UInt8) (stat : AcceptStat) : Prop :=
  if word d 12 ≠ PORTMAP_PROGRAM then stat = .progUnavail
  else if word d 16 ≠ 2 then ∃ low high, stat = .progMismatch low high
  else if ¬Credited d then stat = .systemErr ∨ stat = .garbageArgs
  else if PMAP_PROC_DUMP < word d 20 then stat = .procUnavail
  else stat = .success

/-- A body that fits a request: it is denied only for another version of the protocol, and accepted
with an empty verifier and the `accept_stat` that the request calls for. -/
def Fits (d : List UInt8) : ReplyBody → Prop
  | .denied _ => word d 8 ≠ 2
  | .accepted verf stat => verf = ⟨AUTH_NULL, []⟩ ∧ StatFor d stat

/-- A reply message to the request `d`. -/
def WellFormed (d r : List UInt8) : Prop :=
  Returns reply r fun m _ => m.xid = word d 0 ∧ Fits d m.body

/-- Another version of the protocol is asked for, or a procedure of the port mapper, with
credentials that are in order and that are taken for such. -/
def Served (d : List UInt8) : Prop :=
  word d 8 ≠ 2 ∨ (word d 12 = PORTMAP_PROGRAM ∧ word d 16 = 2 ∧ argsOf d 24 ≠ none ∧ Credited d ∧
    word d 20 ≤ PMAP_PROC_DUMP)

/-! ### The replies that are sent -/

/-- What follows `msg_type` in a reply. -/
def bodyBytes (replyState port : ℕ) : List UInt8 :=
  be32 replyState ++ be32 0 ++ be32 0 ++ be32 0 ++ be32 port

lemma word_be32_append {n : ℕ} (h : n < 2 ^ 32) (l : List UInt8) : word (be32 n ++ l) 0 = n := by
  rw [word_append_left (by rw [length_be32]), word_be32 h]

variable {Q : ReplyBody → Prop} {port st : ℕ} {d : List UInt8}

lemma wellFormed_iff : WellFormed d (replyBytes (word d 0) st port) ↔
      Returns replyBody (bodyBytes st port) fun b _ => Fits d b := by
  have hsplit : replyBytes (word d 0) st port =
      be32 (word d 0) ++ (be32 RPC_REPLY ++ bodyBytes st port) := by
    simp [replyBytes, bodyBytes]
  have hxid : word (replyBytes (word d 0) st port) 0 = word d 0 := by
    rw [hsplit, word_be32_append (word_lt d 0)]
  have htype : word (replyBytes (word d 0) st port) 4 = 1 := by
    rw [hsplit]
    calc word (be32 (word d 0) ++ (be32 RPC_REPLY ++ bodyBytes st port)) 4
        = word (be32 RPC_REPLY ++ bodyBytes st port) 0 := word_append_right (be32 (word d 0)) _ 0
      _ = 1 := word_be32_append (by decide) _
  have hlen : 8 ≤ (replyBytes (word d 0) st port).length := (by decide : 8 ≤ 28)
  have hdrop : (replyBytes (word d 0) st port).drop 8 = bodyBytes st port := rfl
  rw [WellFormed, returns_reply, hdrop, hxid, and_iff_right hlen, and_iff_right htype]
  exact returns_and.trans (and_iff_right rfl)

lemma returns_accepted : (Returns replyBody (bodyBytes REPLY_OK port) fun b _ => Q b) ↔
      Q (.accepted ⟨AUTH_NULL, []⟩ .success) := by
  have hstat : acceptStat (be32 0 ++ be32 port) = some (.success, be32 port) := rfl
  have hdrop : (bodyBytes REPLY_OK port).drop 4 = be32 0 ++ be32 0 ++ be32 0 ++ be32 port := rfl
  have hauth : ∀ {Q : Auth → List UInt8 → Prop},
      Returns auth (be32 0 ++ be32 0 ++ be32 0 ++ be32 port) Q ↔
        Q ⟨AUTH_NULL, []⟩ (be32 0 ++ be32 port) := by
    have hword : word (be32 0 ++ be32 0 ++ be32 0 ++ be32 port) 4 = 0 := rfl
    have hlen : 8 ≤ (be32 0 ++ be32 0 ++ be32 0 ++ be32 port).length := (by decide : 8 ≤ 16)
    intro Q
    rw [returns_auth, hword]
    exact ⟨fun h => h.2.2.2, fun h => ⟨hlen, Nat.zero_le _, hlen, h⟩⟩
  have hlen : 4 ≤ (bodyBytes REPLY_OK port).length := (by decide : 4 ≤ 20)
  have hword : word (bodyBytes REPLY_OK port) 0 = 0 := rfl
  rw [replyBody, returns_bind, returns_uint, hdrop, and_iff_right hlen]
  simp only [hword, returns_bind, hauth, returns_iff_of_eq hstat, returns_pure]

lemma returns_denied : (Returns replyBody (bodyBytes REPLY_DENIED port) fun b _ => Q b) ↔
      Q (.denied (.rpcMismatch 0 0)) := by
  have he : replyBody (bodyBytes REPLY_DENIED port) =
    some (.denied (.rpcMismatch 0 0), be32 port) := rfl
  exact returns_iff_of_eq he

lemma not_returns_other {Q : ReplyBody → List UInt8 → Prop} (h1 : 1 < st)
    (h2 : st < 2 ^ 32) : ¬ Returns replyBody (bodyBytes st port) Q := by
  have hword : word (bodyBytes st port) 0 = st := by simp [bodyBytes, word_be32_append h2]
  rw [replyBody, returns_bind, returns_uint, hword]
  obtain ⟨n, rfl⟩ : ∃ n, st = n + 2 := ⟨st - 2, by omega⟩
  exact fun h => returns_fail h.2

/-! ### Which replies fit -/

lemma answerOf_proc {args : ℕ} (hvers : word d 8 = 2) (hprogram : word d 12 = PORTMAP_PROGRAM)
    (hversion : word d 16 = 2) (hargs : argsOf d 24 = some args) : (answerOf d).1 =
    if word d 20 ≤ PMAP_PROC_DUMP then REPLY_OK else PROC_UNAVAIL := by
  simp only [answerOf, hvers, hprogram, hversion, hargs, ne_eq, not_true_eq_false, if_false]
  by_cases hproc : word d 20 ≤ PMAP_PROC_DUMP
  · have hcases : word d 20 = PMAP_PROC_NULL ∨ word d 20 = PMAP_PROC_SET ∨ word d 20 =
        PMAP_PROC_UNSET ∨ word d 20 = PMAP_PROC_GETPORT ∨ word d 20 = PMAP_PROC_DUMP := by
      simp only [PMAP_PROC_NULL, PMAP_PROC_SET, PMAP_PROC_UNSET, PMAP_PROC_GETPORT,
        PMAP_PROC_DUMP] at hproc ⊢
      omega
    rw [if_pos hproc]
    rcases hcases with h | h | h | h | h
    all_goals
      rw [h]
      rfl
  · have hne : ∀ k ≤ PMAP_PROC_DUMP, word d 20 ≠ k := fun k hk h => hproc (h.le.trans hk)
    rw [if_neg hproc, if_neg (hne _ (by decide)), if_neg (hne _ (by decide)),
      if_neg (hne _ (by decide)), if_neg (hne _ (by decide)), if_neg (hne _ (by decide))]

/-- **The reply to a request** fits it just if it is one of those that are served. -/
theorem wellFormed_replyTo_iff (d : List UInt8) : WellFormed d (replyTo d) ↔ Served d := by
  rw [replyTo, wellFormed_iff]
  by_cases hvers : word d 8 = 2
  swap
  · have ha : answerOf d = (REPLY_DENIED, 0) := if_pos hvers
    rw [ha, returns_denied]
    exact iff_of_true hvers (Or.inl hvers)
  by_cases hprogram : word d 12 = PORTMAP_PROGRAM
  swap
  · have ha : answerOf d = (REPLY_DENIED, 0) := by
      rw [answerOf, if_neg (not_not.2 hvers), if_pos hprogram]
      rfl
    rw [ha, returns_denied]
    refine iff_of_false (not_not.2 hvers) fun h => ?_
    exact h.elim (fun h => h hvers) fun h => hprogram h.1
  by_cases hversion : word d 16 = 2
  swap
  · have ha : answerOf d = (PROG_MISMATCH, 0) := by
      rw [answerOf, if_neg (not_not.2 hvers), if_neg (not_not.2 hprogram), if_pos hversion]
    rw [ha]
    refine iff_of_false (not_returns_other (by decide) (by decide)) fun h => ?_
    exact h.elim (fun h => h hvers) fun h => hversion h.2.1
  cases hargs : argsOf d 24 with
  | none =>
    have ha : answerOf d = (SYSTEM_ERR, 0) := by
      rw [answerOf, if_neg (not_not.2 hvers), if_neg (not_not.2 hprogram),
        if_neg (not_not.2 hversion), hargs]
    rw [ha]
    refine iff_of_false (not_returns_other (by decide) (by decide)) fun h => ?_
    exact h.elim (fun h => h hvers) fun h => h.2.2.1 hargs
  | some args =>
    have hsome : argsOf d 24 ≠ none := by
      rw [hargs]
      exact Option.some_ne_none args
    rw [answerOf_proc hvers hprogram hversion hargs]
    by_cases hproc : word d 20 ≤ PMAP_PROC_DUMP
    · rw [if_pos hproc, returns_accepted, Fits, StatFor, if_neg (not_not.2 hprogram),
        if_neg (not_not.2 hversion)]
      by_cases hcred : Credited d
      · rw [if_neg (not_not.2 hcred), if_neg (not_lt.2 hproc)]
        exact iff_of_true ⟨rfl, rfl⟩ (Or.inr ⟨hprogram, hversion, hsome, hcred, hproc⟩)
      · rw [if_pos hcred]
        refine iff_of_false (by simp) fun h => ?_
        exact h.elim (fun h => h hvers) fun h => hcred h.2.2.2.1
    · rw [if_neg hproc]
      refine iff_of_false (not_returns_other (by decide) (by decide)) fun h => ?_
      exact h.elim (fun h => h hvers) fun h => hproc h.2.2.2.2

/-- **The port mapper answers requests as it should** just if they are of another version of the
protocol, or calls of a procedure of the port mapper with credentials in order. -/
theorem portmap_replies_iff (file : Bool) (rs : List Recv) (pkt : ℕ → UInt8) :
    (Returns (dummyPortmap file rs) (start pkt) fun _ t =>
      ∀ a ∈ t.answers, WellFormed a.1 a.2) ↔
    ∀ d ∈ received rs, Answered d → Served d := by
  obtain ⟨x, t, he, hanswers, -⟩ := returns_dummyPortmap file rs (within_start pkt)
  rw [returns_iff_of_eq he, hanswers]
  constructor
  · intro h d hd hanswered
    refine (wellFormed_replyTo_iff d).1 (h (d, replyTo d) ?_)
    rw [start, nil_append, mem_flatMap]
    refine ⟨d, hd, ?_⟩
    rw [answersTo, if_pos hanswered]
    exact mem_singleton_self _
  · intro h a ha
    rw [start, nil_append, mem_flatMap] at ha
    obtain ⟨d, hd, ha⟩ := ha
    unfold answersTo at ha
    split_ifs at ha with hanswered
    · rw [mem_singleton.1 ha]
      exact (wellFormed_replyTo_iff d).2 (h d hd hanswered)
    · exact absurd ha not_mem_nil

/-- A call of another program, with the transaction identifier 7 and no credentials. -/
def otherProgram : List UInt8 :=
  be32 7 ++ be32 RPC_CALL ++ be32 2 ++ be32 100003 ++ be32 2 ++ List.replicate 36 0

/-- The reply to it denies the call, as for a version of the protocol that is not known. -/
theorem other_program_denied :
    (Returns (dummyPortmap false [.datagram otherProgram]) (start fun _ => 0) fun _ t =>
      t.answers = [(otherProgram, replyTo otherProgram)]) ∧
    reply (replyTo otherProgram) = some (⟨7, .denied (.rpcMismatch 0 0)⟩, be32 0) ∧
    word otherProgram 8 = 2 ∧ ¬ WellFormed otherProgram (replyTo otherProgram) := by
  refine ⟨by decide +kernel, by decide +kernel, by decide, ?_⟩
  rw [wellFormed_replyTo_iff]
  rintro (hvers | ⟨hprogram, -⟩)
  · exact hvers (by decide)
  · exact absurd hprogram (by decide)

end Klibc.Nfsmount.PmapReplies
