import Bluebox.Sizes
import Bluebox.Lib.Reach
import Bluebox.Lib.Framing
import Bluebox.Lib.CString
import Bluebox.Lib.Stamped
import Bluebox.Lib.Fifo
import Bluebox.Lib.First
import Bluebox.Linebuf.Basic
import Bluebox.Linebuf.Account
import Bluebox.Linebuf.Flush
import Bluebox.Linebuf.Lines
import Bluebox.Linebuf.Split
import Bluebox.Packet
import Bluebox.Match
import Bluebox.Channel.Basic
import Bluebox.Channel.Table
import Bluebox.Channel.Bans
import Bluebox.Channel.ChMode
import Bluebox.Channel.Join
import Bluebox.Channel.Update
import Bluebox.Channel.Server
import Bluebox.Channel.Run
import Bluebox.Channel.BanList
import Bluebox.Channel.BanCache
import Bluebox.Channel.Merge
import Bluebox.Channel.Burst
import Bluebox.Nick.Ledger
import Bluebox.Nick.Moves
import Bluebox.Nick.Basic
import Bluebox.Nick.Follow
import Bluebox.Nick.Agreement
import Bluebox.Rawbuf
import Bluebox.Resolver.Name
import Bluebox.Resolver.Pack
import Bluebox.Resolver.Query
import Bluebox.Resolver.Text
import Bluebox.Ssld.Control
import Bluebox.Ssld.Conn
import Bluebox.Ssld.Table
import Bluebox.Patricia.Basic
import Bluebox.Patricia.Spec
import Bluebox.Patricia.Search
import Bluebox.Hostmask
import Bluebox.Dline.Basic
import Bluebox.Dline.Owned
import Bluebox.Limits.Basic
import Bluebox.Limits.Exact
import Bluebox.Bandb.Basic
import Bluebox.Bandb.Params
import Bluebox.Bandb.Masks
import Bluebox.Bandb.RoundTrip
import Bluebox.Atable
import Bluebox.Dline.Linked
import Bluebox.Bandb.Reload
import Bluebox.Channel.Topic
import Bluebox.Spam.Basic
import Bluebox.Spam.Escape
import Bluebox.Spam.Map
import Bluebox.Spam.Strip
import Bluebox.Gline.Basic
import Bluebox.Gline.Votes
import Bluebox.Netsplit.Basic
import Bluebox.Netsplit.Tree
import Bluebox.Netsplit.Exit
import Bluebox.Netsplit.Split
import Bluebox.Lib.Once
import Bluebox.Fanout
import Bluebox.Lib.Tally
import Bluebox.Umode.Basic
import Bluebox.Umode.Count
import Bluebox.Umode.Agree
import Bluebox.Monitor.Basic
import Bluebox.Monitor.Linked
import Bluebox.Monitor.Truth
import Bluebox.Monitor.Run
import Bluebox.Patricia.Table
import Bluebox.Dline.Families
import Bluebox.Lib.Pack
import Bluebox.Channel.Forward
import Bluebox.Channel.Relay
import Bluebox.Lib.Threads
import Bluebox.Whowas
import Bluebox.Channel.ModeLine
import Bluebox.Channel.Replay
import Bluebox.Channel.ModeBuf
import Bluebox.Limits.Global
import Bluebox.Lib.Buckets
import Bluebox.Atable.Lookup
import Bluebox.Channel.Notify
import Bluebox.Channel.Cloak
import Bluebox.Lib.Glob
import Bluebox.Glob.Match
import Bluebox.Glob.Effort
import Bluebox.Glob.Escape
import Bluebox.Glob.EscEffort
import Bluebox.Glob.MatchEsc
import Bluebox.Channel.Limit
import Bluebox.Channel.FinalMode
import Bluebox.Channel.Announce
import Bluebox.Channel.LostTs
import Bluebox.Channel.Aligned
import Bluebox.Channel.ChCaps
import Bluebox.Channel.Propagate
import Bluebox.Channel.MaskWord
import Bluebox.Channel.BurstLists
import Bluebox.Lib.Odometer
import Bluebox.Nick.Uid
import Bluebox.Umode.Buffer
import Bluebox.Vhost.Basic
import Bluebox.Vhost.Address
import Bluebox.Parse
import Bluebox.Channel.NormalMask
import Bluebox.Atable.Auth
import Bluebox.Patricia.Walk
import Bluebox.Patricia.Nested
import Bluebox.Dline.Filed
import Bluebox.Dline.Report
import Bluebox.Dline.Clear
import Bluebox.Nick.Hash
import Bluebox.Nick.Unique
import Bluebox.Nick.UniqueRuns
import Bluebox.Lib.Meter
import Bluebox.Kline.TempTime
import Bluebox.Message.Flood
import Bluebox.Message.Targets
import Bluebox.Message.Special
import Bluebox.Inet
import Bluebox.Atable.PrefixLen
import Bluebox.Kline.Cidr
import Bluebox.Kline.Unkline
import Bluebox.Cap
import Bluebox.Bandb.WildSimple
import Bluebox.Event
import Bluebox.Hash
import Bluebox.Linebuf.Put
import Bluebox.Members.Consistent
import Bluebox.Lib.Ring
import Bluebox.Dns.Basic
import Bluebox.Dns.Safe
import Bluebox.Dns.Runs
import Bluebox.Dns.Answers
import Bluebox.Exit.Basic
import Bluebox.Exit.Safe
import Bluebox.Exit.Leave
import Bluebox.Exit.Runs
