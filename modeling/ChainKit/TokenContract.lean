import ChainKit.Transaction.Action

namespace ChainKit.TokenContract

def named (s : String) : Name := (Name.parse s).toOption.getD Name.empty

def account : Name := named "eosio.token"

def struct (name : String) (fields : List (String × String)) : Abi.StructDef :=
  ⟨name, "", fields.map fun (n, t) => ⟨n, t⟩⟩

def action (name : String) : Abi.ActionDef := ⟨named name, name, ""⟩

def table (name rowType : String) : Abi.TableDef :=
  ⟨named name, "i64", ["currency"], ["uint64"], rowType⟩

def document : Abi.Document where
  version := "eosio::abi/1.1"
  aliases := [⟨"account_name", "name"⟩]
  structs :=
    [struct "transfer"
        [("from", "account_name"), ("to", "account_name"), ("quantity", "asset"),
          ("memo", "string")],
      struct "create" [("issuer", "account_name"), ("maximum_supply", "asset")],
      struct "issue" [("to", "account_name"), ("quantity", "asset"), ("memo", "string")],
      struct "retire" [("quantity", "asset"), ("memo", "string")],
      struct "open" [("owner", "account_name"), ("symbol", "symbol"), ("ram_payer", "account_name")],
      struct "close" [("owner", "account_name"), ("symbol", "symbol")],
      struct "account" [("balance", "asset")],
      struct "currency_stats"
        [("supply", "asset"), ("max_supply", "asset"), ("issuer", "account_name")]]
  actions :=
    [action "transfer", action "create", action "issue", action "retire", action "open",
      action "close"]
  tables := [table "accounts" "account", table "stat" "currency_stats"]

def call (name : String) (authorizer : Name) (data : Json) : Action :=
  ⟨account, named name, [⟨authorizer, named "active"⟩], .json data⟩

def transfer (source target : Name) (quantity : Asset) (memo : String) : Action :=
  call "transfer" source
    (.obj [("from", .str source.text), ("to", .str target.text),
      ("quantity", Abi.Leaf.showAsset quantity), ("memo", .str memo)])

def issue (issuer target : Name) (quantity : Asset) (memo : String) : Action :=
  call "issue" issuer
    (.obj [("to", .str target.text), ("quantity", Abi.Leaf.showAsset quantity), ("memo", .str memo)])

def openBalance (owner : Name) (symbol : Symbol) (payer : Name) : Action :=
  call "open" payer
    (.obj [("owner", .str owner.text), ("symbol", .str symbol.text),
      ("ram_payer", .str payer.text)])

end ChainKit.TokenContract
