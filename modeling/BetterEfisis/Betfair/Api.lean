import BetterEfisis.Model.Account

/-!
# `Betfair::API`

The token of a session is kept in the account it was issued for. The endpoint
answers with a `sessionToken` or, where it refuses, without one. Of what is sent to it
and of `get_market_book` this has the requests.
-/

namespace BetterEfisis.Betfair

/-- What `login` returns, and whether it has asked the endpoint for it. -/
inductive Login where
  | cached (ssoid : Option String)
  | asked (ssoid : Option String)
deriving DecidableEq, Repr

def Login.ssoid : Login → Option String
  | .cached s => s
  | .asked s => s

/--
`login(user, pass)`. The clock is read at `now` and `now'` by the test of the
stored session and at `now''` for the new one; `answer` is the `sessionToken` of
the endpoint. The result of `account.save` is not looked at.
-/
def login (same : String → String → Bool) (md5 : String → String) (t : List Account)
    (user pass : String) (now now' now'' : Int) (answer : Option String) :
    Except RubyError (List Account × Login) := do
  if ← Account.betfairValidSsoid same t user pass now now' then
    let account ← notNil (Account.betfairGetSsoid md5 t user pass)
    return (t, .cached account.ssoid)
  else
    let (i, account) ← notNil (Account.betfairByCreds same t user pass)
    return (Account.save md5 t i { account with time := some now'', ssoid := answer },
      .asked answer)

/-- What `login` posts. -/
structure LoginRequest where
  contentType : String
  body : String
deriving DecidableEq, Repr

/-- The request of `login(user, pass)`. -/
def loginRequest (user pass : String) : LoginRequest where
  contentType := "application/x-www-form-urlencoded"
  body := "username=" ++ user ++ "&password=" ++ pass

/-- What `get_market_book` can be given. -/
inductive MarketId where
  | one (id : Option String)
  | array (ids : List (Option String))
deriving DecidableEq, Repr

/-- A request for market books. -/
structure MarketBookRequest where
  jsonrpc : String
  method : String
  marketIds : List (Option String)
  priceData : List String
  virtualise : Bool
  rolloverStakes : Bool
  orderProjection : String
  currencyCode : String
deriving DecidableEq, Repr

/-- `get_market_book(market_id)`, up to its request. What is no array is made one. -/
def marketBookRequest (marketId : MarketId) : MarketBookRequest where
  jsonrpc := "2.0"
  method := "SportsAPING/v1.0/listMarketBook"
  marketIds := match marketId with
    | .one id => [id]
    | .array ids => ids
  priceData := ["EX_ALL_OFFERS"]
  virtualise := false
  rolloverStakes := false
  orderProjection := "EXECUTABLE"
  currencyCode := "EUR"

end BetterEfisis.Betfair
