import BlockAudit.Client.Request

/-! Recorded exchanges with a node, which stand for the node itself. -/
namespace BlockAudit.Client

open Json (Reader Record)

structure Exchange where
  request : Request
  reply : Reply

namespace Exchange

/-- A field that may be left out. Any value fits it, null too. -/
def anything (name : String) : Record (Option Json) :=
  .field name none (fun value => .ok (some value)) (.ok none)

/-- Without a result and without an error, no answer has arrived. -/
def replyOf (result error : Option Json) : Reply :=
  match result, error with
  | _, some _ => .refusal
  | some value, none => .result value
  | none, none => .failure

def record : Record Exchange :=
  (fun method params result error => ⟨⟨method, params⟩, replyOf result error⟩)
    <$> .required "method" Reader.string
    <*> .required "params" (.list .ok)
    <*> anything "result"
    <*> anything "error"

def reader : Reader Exchange :=
  record.reader .ignored

end Exchange

/-- Replies to each request as recorded, one after the other. -/
def replay (exchanges : List Exchange) : Transport := fun request sending =>
  let replies := exchanges.filter fun exchange => exchange.request.text == request.text
  match replies[sending]? with
  | some exchange => exchange.reply
  | none => .failure

end BlockAudit.Client
