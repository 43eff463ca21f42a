import BlockAudit.Proofs.Client.Fetch
import BlockAudit.Proofs.Client.Window
import BlockAudit.Proofs.Hex
import BlockAudit.Proofs.Outcome
import Mathlib.Data.Fin.VecNotation
import Mathlib.Tactic.FinCases

/-!
The receipts of transactions, asked for in the order of the transactions and collected in that order. Which
receipts are returned, or which error, is the same for every order in which the replies arrive.
-/
namespace BlockAudit.Client

/-- A reply with a receipt that can be read. -/
def Reply.Yields (reply : Reply) (receipt : Rpc.Receipt) : Prop :=
  ∃ value, reply = .result value ∧ value ≠ .null ∧ Rpc.Receipt.reader value.sorted = .ok receipt

section Replies

variable {hash : Hash} {reply : Reply} {receipt : Rpc.Receipt}

theorem interpret_eq_ok_iff {α : Type} {reader : Json.Reader α} {method : String} {missing : ClientError}
    {a : α} :
    interpret reader method missing reply = .ok a ↔
      ∃ value, reply = .result value ∧ value ≠ .null ∧ reader value.sorted = .ok a := by
  fun_cases interpret reader method missing reply with
  | case1 => simp
  | case2 => simp
  | case3 => simp
  | case4 value hvalue =>
    rw [mapError_eq_ok_iff]
    constructor
    · exact fun hread => ⟨value, rfl, hvalue, hread⟩
    · rintro ⟨_, ⟨⟩, -, hread⟩
      exact hread

theorem read_receipt_eq_ok_iff :
    (Query.receipt hash).read reply = .ok receipt ↔ reply.Yields receipt :=
  interpret_eq_ok_iff

end Replies

section Receipts

variable {collector : Collector ClientError Rpc.Receipt} {policy : Retry.Policy} {transport : Transport}
  {latency : Latency} {hashes : List Hash}

/-- The queries of a fetch, one for each transaction. -/
theorem query_receipts_eq_some_iff {i : Nat} {query : Query Rpc.Receipt} :
    (hashes.map Query.receipt)[i]? = some query ↔ ∃ hash, hashes[i]? = some hash ∧ .receipt hash = query := by
  rw [List.getElem?_map, Option.map_eq_some_iff]

/-- What was answered are the readings of the replies. -/
theorem outcome_of_mem_outputs {job : Job Rpc.Receipt} {log : List Event}
    {replies : Fin hashes.length → Reply} (hqueries : job.queries = hashes.map .receipt)
    (hreplies : ∀ i reply, .answered i.val reply ∈ log → replies i = reply) (i : Fin hashes.length)
    (output : Except ClientError Rpc.Receipt) (h : (i.val, output) ∈ outputs job log) :
    (Query.receipt hashes[i]).read (replies i) = output := by
  obtain ⟨reply, query, hanswered, hquery, rfl⟩ := mem_outputs_iff.mp h
  rw [hqueries, query_receipts_eq_some_iff] at hquery
  obtain ⟨hash, hhash, rfl⟩ := hquery
  rw [List.getElem?_eq_getElem i.isLt] at hhash
  obtain rfl := Option.some.inj hhash
  rw [hreplies i reply hanswered]
  rfl

end Receipts

/-- Receipts come in the order of their transactions, in whatever order the replies arrive. Requests are sent
for the first time in the order of the transactions, at most 16 are under way at any time, and each is answered
once, with what a call of its own leads to. All receipts are returned if every reply has one, and otherwise the
error of the first request without one. -/
theorem receipts_in_order (collector : Collector ClientError Rpc.Receipt) (hlawful : collector.Lawful)
    (policy : Retry.Policy) (transport : Transport) (latency : Latency) (hashes : List Hash) :
    let fetch := fetchReceipts collector policy transport latency hashes
    collector.isDone fetch.state ∧
    (∀ front i request earlier rest, fetch.log = front ++ .sent i request earlier :: rest →
      (∃ hash, hashes[i]? = some hash ∧ request = .receipt hash) ∧
        earlier = timesSent front request ∧ (∀ j < i, Sent front j) ∧ ¬ Answered front i) ∧
    (∀ front, front <+: fetch.log → (underWay front).encard ≤ 16) ∧
    (∀ front i reply rest, fetch.log = front ++ .answered i reply :: rest →
      ¬ Answered front i ∧ ∃ hash, hashes[i]? = some hash ∧
        let run := Retry.Call.run ⟨Request.receipt hash, policy⟩ fun k =>
          attempt (transport (.receipt hash) ((sendings front i).getD k 0))
        run.result = attempt reply ∧ run.sent.length = (sendings front i).length) ∧
    ∀ replies : Fin hashes.length → Reply,
      (∀ i reply, .answered i.val reply ∈ fetch.log → replies i = reply) →
      ((∃ receipts, fetch.outcome.result = .ok receipts) ↔ ∀ i, ∃ receipt, (replies i).Yields receipt) ∧
      (∀ receipts, fetch.outcome.result = .ok receipts → receipts.length = hashes.length ∧
        ∀ i receipt, receipts[i.val]? = some receipt → (replies i).Yields receipt) ∧
      ∀ error, fetch.outcome.result = .error error →
        ∃ i, (Query.receipt hashes[i]).read (replies i) = .error error ∧
          ∀ j < i, ∃ receipt, (replies j).Yields receipt := by
  intro fetch
  let job : Job Rpc.Receipt := { queries := hashes.map .receipt, policy, transport, latency }
  obtain ⟨hsound, hrecorded, hdone⟩ := Fetch.sound_run hlawful job
  refine ⟨hdone, fun front i request earlier rest h => ?_, fun front h => hrecorded.encard_le h,
    fun front i reply rest h => ?_, fun replies hreplies => ?_⟩
  · obtain ⟨⟨query, hquery, hrequest⟩, hearlier, hbefore, hopen⟩ := hrecorded.follows h
    obtain ⟨hash, hhash, rfl⟩ := query_receipts_eq_some_iff.mp hquery
    exact ⟨⟨hash, hhash, hrequest⟩, hearlier, hbefore, hopen⟩
  · obtain ⟨hopen, query, hquery, hrun⟩ := hrecorded.follows h
    obtain ⟨hash, hhash, rfl⟩ := query_receipts_eq_some_iff.mp hquery
    exact ⟨hopen, hash, hhash, hrun⟩
  · have hreaches := hsound.reaches
    have houtputs := @outcome_of_mem_outputs hashes job fetch.log replies rfl hreplies
    rw [List.length_map] at hreaches
    have hok := fun receipts => hreaches.result_eq_ok_iff hlawful (by decide) houtputs hdone receipts
    have herror := fun error => hreaches.result_eq_error_iff hlawful (by decide) houtputs hdone error
    simp only [read_receipt_eq_ok_iff] at hok herror
    refine ⟨⟨?_, fun hall => ?_⟩, fun receipts => (hok receipts).mp, fun error => (herror error).mp⟩
    · rintro ⟨receipts, hresult⟩ i
      obtain ⟨hlength, hyields⟩ := (hok receipts).mp hresult
      exact ⟨_, hyields i _ (List.getElem?_eq_getElem (i.isLt.trans_eq hlength.symm))⟩
    · cases hresult : fetch.outcome.result with
      | ok receipts => exact ⟨receipts, rfl⟩
      | error error =>
        obtain ⟨i, hfailed, -⟩ := (herror error).mp hresult
        obtain ⟨receipt, hyields⟩ := hall i
        cases hfailed.symm.trans (read_receipt_eq_ok_iff.mpr hyields)

section Crossed

/-- The receipt of a transaction without logs, as a node describes it. -/
def plainDocument (hash : Hash) (bloom : Bloom) : Json :=
  .object [
    ("cumulativeGasUsed", .string "0x5208"), ("gasUsed", .string "0x5208"),
    ("logsBloom", .string bloom.markedHex), ("transactionHash", .string hash.markedHex),
    ("transactionIndex", .string "0x0")]

def plainReceipt (hash : Hash) (bloom : Bloom) : Rpc.Receipt where
  transactionHash := hash
  transactionIndex := 0
  cumulativeGasUsed := 0x5208
  gasUsed := 0x5208
  logsBloom := bloom
  logs := []
  root := []
  status := none
  type := none

theorem sorted_plainDocument (hash : Hash) (bloom : Bloom) :
    (plainDocument hash bloom).sorted = plainDocument hash bloom := by
  simp only [plainDocument, Json.sorted, Json.sortedFields, Json.insertField, String.reduceLT,
    String.reduceBEq, ↓reduceIte, Bool.false_eq_true]

theorem reader_plainDocument (hash : Hash) (bloom : Bloom) :
    Rpc.Receipt.reader (plainDocument hash bloom) = .ok (plainReceipt hash bloom) := by
  have hhash : Rpc.hash (.string hash.markedHex) = .ok hash := Rpc.ofString_ofFixed hash
  have hbloom : Rpc.bloom (.string bloom.markedHex) = .ok bloom := Rpc.ofString_ofFixed bloom
  have hgas : Rpc.word (.string "0x5208") = .ok 0x5208 := by decide +kernel
  have hindex : Rpc.uint64 (.string "0x0") = .ok 0 := by decide +kernel
  simp only [plainDocument, Rpc.Receipt.reader, Rpc.Receipt.record, Json.Record.reader,
    Json.Record.collect, Json.FieldSpec.answersTo, Json.Record.required, Json.Record.defaulting,
    Json.Record.optional, Json.Record.field, Seq.seq, Functor.map, Except.map, pure, Except.pure, bind,
    Except.bind, String.reduceBEq, ↓reduceIte, Bool.false_eq_true, List.nil_append, List.cons_append,
    Option.none_beq_some, Bool.or_self, Bool.or_false, not_false_eq_true, BEq.rfl,
    List.find?_cons_of_neg, List.find?_cons_of_pos, List.lookup_nil, List.lookup_cons,
    Option.isSome_none, mapError_ok, hhash, hbloom, hgas, hindex, plainReceipt]

/-- The first sending of a request gets no answer, the second one reply and later ones another. -/
def crossedReplies (first second : Reply) : Transport := fun _ n =>
  match n with
  | 0 => .failure
  | 1 => second
  | _ => first

/-- The first sending takes longer than the others. -/
def slowStart (slow quick : Duration) : Latency := fun _ n =>
  if n = 0 then slow else quick

/-- The same request twice. The second is answered while the first is still to be sent again. -/
theorem log_crossed {hash : Hash} {a b : Rpc.Receipt} {first second : Json} {slow quick : Duration}
    (hfirst : (Query.receipt hash).read (.result first) = .ok a)
    (hsecond : (Query.receipt hash).read (.result second) = .ok b)
    (hslow : slow.nanos = 3000000) (hquick : quick.nanos = 1000000) :
    (fetchReceipts Window.collector { backoff := quick, maxRetries := 1 }
      (crossedReplies (.result first) (.result second)) (slowStart slow quick) [hash, hash]).log =
      [.sent 0 (.receipt hash) 0, .sent 1 (.receipt hash) 1, .answered 1 (.result second),
        .sent 0 (.receipt hash) 2, .answered 0 (.result first)] := by
  have hrequest : (Query.receipt hash).request = .receipt hash := rfl
  have hdelay : (Retry.Policy.delay { backoff := quick, maxRetries := 1 }).nanos = 1000000 := by
    rw [Retry.Policy.nanos_delay, hquick]
    rfl
  simp [fetchReceipts, Fetch.run, Fetch.iterate, Fetch.start, Fetch.step, Fetch.newTasks, Fetch.serve,
    Fetch.send, Fetch.receive, Fetch.finish, Fetch.later, Fetch.wake, Fetch.wakeAt, Window.collector,
    Window.start, Window.fill, Window.started, Window.isDone, Window.answer, Window.settle,
    Window.collectFrom, maxUnderWay, timesSent, Event.sends, attempt, Retry.Policy.after?,
    Retry.Policy.next?, crossedReplies, slowStart, List.range', List.filter_cons, List.min?_cons, hrequest,
    hfirst, hsecond, hslow, hquick, hdelay]

theorem receipts_in_order_crossed :
    let hash : Hash := .padLeft 32 [1]
    let first := plainDocument hash (.zero 256)
    let second := plainDocument hash (.padLeft 256 [1])
    let fetch := fetchReceipts Window.collector { backoff := .ofMillis 1, maxRetries := 1 }
      (crossedReplies (.result first) (.result second)) (slowStart (.ofMillis 3) (.ofMillis 1)) [hash, hash]
    fetch.log =
      [.sent 0 (.receipt hash) 0, .sent 1 (.receipt hash) 1, .answered 1 (.result second),
        .sent 0 (.receipt hash) 2, .answered 0 (.result first)] ∧
    (∀ front, front <+: fetch.log → (underWay front).encard ≤ 16) ∧
    fetch.outcome.result =
      .ok [plainReceipt hash (.zero 256), plainReceipt hash (.padLeft 256 [1])] := by
  intro hash first second
  have hread : ∀ bloom,
      (Query.receipt hash).read (.result (plainDocument hash bloom)) = .ok (plainReceipt hash bloom) := by
    intro bloom
    rw [read_receipt_eq_ok_iff]
    exact ⟨_, rfl, nofun, by rw [sorted_plainDocument, reader_plainDocument]⟩
  have hfirst : (Query.receipt hash).read (.result first) = .ok (plainReceipt hash (.zero 256)) := hread _
  have hsecond : (Query.receipt hash).read (.result second) = .ok (plainReceipt hash (.padLeft 256 [1])) :=
    hread _
  have hslow : (Duration.ofMillis 3).nanos = 3000000 := by decide
  have hquick : (Duration.ofMillis 1).nanos = 1000000 := by decide
  -- Known values would be computed with.
  generalize plainReceipt hash (.zero 256) = a, plainReceipt hash (.padLeft 256 [1]) = b at *
  generalize Duration.ofMillis 3 = slow, Duration.ofMillis 1 = quick at *
  clear_value first second hash
  have hlog := log_crossed hfirst hsecond hslow hquick
  obtain ⟨-, -, hnarrow, -, hresult⟩ := receipts_in_order Window.collector Window.lawful_collector
    { backoff := quick, maxRetries := 1 } (crossedReplies (.result first) (.result second))
    (slowStart slow quick) [hash, hash]
  generalize fetchReceipts Window.collector { backoff := quick, maxRetries := 1 }
    (crossedReplies (.result first) (.result second)) (slowStart slow quick) [hash, hash] = fetch at *
  have hreplies : ∀ (i : Fin 2) reply, .answered i.val reply ∈ fetch.log →
      ![Reply.result first, .result second] i = reply := by
    rw [hlog]
    intro i reply hanswered
    fin_cases i <;> simp_all
  obtain ⟨hok, hall, -⟩ := hresult ![.result first, .result second] hreplies
  obtain ⟨receipts, hreceipts⟩ := hok.mpr fun i => by
    fin_cases i
    · exact ⟨a, read_receipt_eq_ok_iff.mp hfirst⟩
    · exact ⟨b, read_receipt_eq_ok_iff.mp hsecond⟩
  obtain ⟨hlength, hyields⟩ := hall receipts hreceipts
  obtain ⟨c, d, rfl⟩ := List.length_eq_two.mp hlength
  have hc : (Query.receipt hash).read (.result first) = .ok c :=
    read_receipt_eq_ok_iff.mpr (hyields (0 : Fin 2) c rfl)
  have hd : (Query.receipt hash).read (.result second) = .ok d :=
    read_receipt_eq_ok_iff.mpr (hyields (1 : Fin 2) d rfl)
  obtain rfl := Except.ok.inj (hfirst.symm.trans hc)
  obtain rfl := Except.ok.inj (hsecond.symm.trans hd)
  exact ⟨hlog, hnarrow, hreceipts⟩

end Crossed

end BlockAudit.Client
